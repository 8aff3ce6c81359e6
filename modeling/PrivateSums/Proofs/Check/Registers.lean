import PrivateSums.Check.Checker
import PrivateSums.Proofs.Answer

/-!
A checker as a program over registers. Its state, its request and its evaluations are assigned one
by one, and each operation looks for what it needs and has something to answer where that is
missing. It answers every call as the checker does, so nothing is ever missing.
-/

namespace PrivateSums.Checker

/-- What can be asked of a checker. -/
inductive Command
  | setRequest (request : ClientRequest)
  | corShare (point : EvaluationPoint)
  | cor (shares : List CorShare)
  | outShare (cor : Cor) (key : Key)
  | outputIsValid (shares : List OutShare)
  | outputShares
  | reset

/-- What a call that succeeds is answered. -/
inductive Reply
  | done
  | corShare (share : CorShare)
  | cor (sums : Cor)
  | outShare (share : OutShare)
  | verdict (isValid : Bool)
  | outputShares (shares : List Nat)
  deriving DecidableEq

/-- The answer to a call, with the checker that it leaves behind. -/
def attempt (k : Checker) : Command → Except CheckerError (Reply × Checker)
  | .setRequest request => do return (.done, ← k.setRequest request)
  | .corShare point => do
    let (share, k') ← k.corShare point
    return (.corShare share, k')
  | .cor shares => do return (.cor (← k.cor shares), k)
  | .outShare cor key => do
    let (share, k') ← k.outShare cor key
    return (.outShare share, k')
  | .outputIsValid shares => do return (.verdict (← k.outputIsValid shares), k)
  | .outputShares => do return (.outputShares (← k.outputShares), k)
  | .reset => return (.done, k.reset)

/-- The answer to a call, and the checker afterwards. -/
def perform (k : Checker) (call : Command) : Except CheckerError Reply × Checker :=
  match k.attempt call with
  | .ok (reply, k') => (.ok reply, k')
  | .error e => (.error e, k)

section Runs

/-! What answers calls is a machine: the checker, or a program that stands for it. -/

variable {σ : Type} (perform : σ → Command → Except CheckerError Reply × σ)

/-- The machine after calls. -/
def after (s : σ) : List Command → σ
  | [] => s
  | call :: calls => after (perform s call).2 calls

/-- The answers to calls, in order. -/
def answers (s : σ) : List Command → List (Except CheckerError Reply)
  | [] => []
  | call :: calls => (perform s call).1 :: answers (perform s call).2 calls

end Runs

/-- What a checker stores, a register for each. -/
structure Registers where
  field : Field
  circuit : Circuit
  server : Nat
  leader : Nat
  servers : Nat
  state : CheckerState
  request? : Option Holding
  evaluations? : Option Evaluations

/-- The registers of a checker. -/
def registers (k : Checker) : Registers where
  field := k.field
  circuit := k.circuit
  server := k.server
  leader := k.leader
  servers := k.servers
  state := k.state
  request? := match k.phase with
    | .idle => none
    | .holding request | .evaluated request _ | .finished request _ => some request
  evaluations? := match k.phase with
    | .idle | .holding _ => none
    | .evaluated _ e | .finished _ e => some e

/-- A program that works on the registers of one checker. -/
abbrev Routine (α : Type) := ExceptT CheckerError (StateM Registers) α

namespace Registers

def require (holds : Prop) [Decidable holds] (e : CheckerError) : Routine Unit :=
  if holds then return else throw e

def expectState (expected : CheckerState) : Routine Unit := do
  let r ← get
  require (r.state = expected) (.protocolSequence expected r.state)

def expectCount (found : Nat) : Routine Unit := do
  let r ← get
  require (found = r.servers) (.wrongShareCount r.servers found)

def setRequest (request : ClientRequest) : Routine Unit := do
  expectState .idle
  let r ← get
  let expected := r.circuit.numSharedValues
  let found := request.hints.deltas.length
  require (request.triple.isCanonical r.field) (.malformedRequest .tripleNotCanonical)
  require (r.server = r.leader → found = expected)
    (.malformedRequest (.deltaCount expected found))
  let replay ← liftM ((Replay.ofHints r.field r.server r.leader request.hints).mapError
    (CheckerError.malformedRequest ∘ .hints))
  let (read, _) := (Holding.read r.field r.circuit request.triple).run.run replay
  let holding ← liftM (read.mapError CheckerError.outOfSync)
  modify fun r => { r with request? := some holding }
  modify fun r => { r with state := .hasRequest }

def corShare (point : EvaluationPoint) : Routine CorShare := do
  expectState .hasRequest
  let r ← get
  let expected := r.circuit.domainSize
  require (point.domain.size = expected) (.precomputeMismatch expected point.domain.size)
  let some request := r.request? | throw (.protocolSequence .hasRequest .idle)
  let e ← liftM ((request.evaluate r.field r.circuit point).mapError CheckerError.polynomial)
  modify fun r => { r with evaluations? := some e }
  modify fun r => { r with state := .layer1Done }
  return request.corShare r.field e

def cor (shares : List CorShare) : Routine Cor := do
  expectState .layer1Done
  expectCount shares.length
  let r ← get
  return { d := r.field.sum (shares.map (·.d)), e := r.field.sum (shares.map (·.e)) }

def outShare (cor : Cor) (key : Key) : Routine OutShare := do
  expectState .layer1Done
  let r ← get
  let some request := r.request? | throw (.protocolSequence .layer1Done .idle)
  let some e := r.evaluations? | throw (.protocolSequence .layer1Done .idle)
  let check := request.combine r.field r.circuit
    (request.productCheck r.field (r.server == r.leader) e cor)
    (Holding.coefficients r.field r.circuit key)
  modify fun r => { r with state := .finished }
  return { check }

def outputIsValid (shares : List OutShare) : Routine Bool := do
  expectState .finished
  expectCount shares.length
  let r ← get
  return r.field.sum (shares.map (·.check)) == 0

def outputShares : Routine (List Nat) := do
  expectState .finished
  let r ← get
  let some request := r.request? | return []
  return r.circuit.outputValues request.wires

def reset : Routine Unit := do
  modify fun r => { r with state := .idle }
  modify fun r => { r with request? := none }
  modify fun r => { r with evaluations? := none }

def routine : Command → Routine Reply
  | .setRequest request => do setRequest request; return .done
  | .corShare point => return .corShare (← corShare point)
  | .cor shares => return .cor (← cor shares)
  | .outShare sums key => return .outShare (← outShare sums key)
  | .outputIsValid shares => return .verdict (← outputIsValid shares)
  | .outputShares => return .outputShares (← outputShares)
  | .reset => do reset; return .done

/-- The answer to a call, and the registers afterwards. -/
def perform (r : Registers) (call : Command) : Except CheckerError Reply × Registers :=
  (routine call).run.run r

section Run

variable {α : Type} (rest : Unit → Routine α)

theorem require_bind_run (holds : Prop) [Decidable holds] (e : CheckerError) (r : Registers) :
    (require holds e >>= rest).run.run r =
      if holds then (rest ()).run.run r else (.error e, r) := by
  rw [Answer.bind_run, require]
  by_cases h : holds
  · rw [if_pos h, if_pos h]
    rfl
  · rw [if_neg h, if_neg h]
    rfl

theorem expectState_bind_run (expected : CheckerState) (r : Registers) :
    (expectState expected >>= rest).run.run r = if r.state = expected then (rest ()).run.run r
      else (.error (.protocolSequence expected r.state), r) := by
  unfold expectState
  rw [bind_assoc, Answer.bind_run, Answer.get_run]
  exact require_bind_run rest _ _ r

theorem expectCount_bind_run (found : Nat) (r : Registers) :
    (expectCount found >>= rest).run.run r = if found = r.servers then (rest ()).run.run r
      else (.error (.wrongShareCount r.servers found), r) := by
  unfold expectCount
  rw [bind_assoc, Answer.bind_run, Answer.get_run]
  exact require_bind_run rest _ _ r

end Run

/-- What an operation answers, and the registers of the checker that it leaves behind. -/
def outcome {α : Type} (k : Checker) :
    Except CheckerError (α × Checker) → Except CheckerError α × Registers
  | .ok (a, k') => (.ok a, k'.registers)
  | .error e => (.error e, k.registers)

theorem setRequest_run (k : Checker) (request : ClientRequest) :
    (setRequest request).run.run k.registers =
      outcome k (k.setRequest request >>= fun k' => .ok ((), k')) := by
  obtain ⟨F, c, server, leader, servers, _ | _ | _ | _⟩ := k
  case idle =>
    unfold setRequest Checker.setRequest Checker.isLeader
    simp only [expectState_bind_run, registers, Checker.state, Phase.state, ↓reduceIte]
    rw [Answer.bind_run, Answer.get_run]
    dsimp only
    rw [require_bind_run, require_bind_run]
    by_cases canonical : request.triple.isCanonical F = true
    swap
    · rw [if_neg canonical, if_neg canonical]
      rfl
    rw [if_pos canonical, if_pos canonical]
    by_cases counted : server = leader → request.hints.deltas.length = c.numSharedValues
    swap
    · obtain ⟨eq, ne⟩ := Classical.not_imp.1 counted
      rw [if_neg counted, if_pos ⟨by simpa using eq, ne⟩]
      rfl
    rw [if_pos counted, if_neg fun few => few.2 (counted (by simpa using few.1)),
      Answer.bind_run, Answer.lift_run]
    cases (Replay.ofHints F server leader request.hints).mapError
        (CheckerError.malformedRequest ∘ Malformation.hints) with
    | error e => rfl
    | ok replay =>
      simp only [Answer.ok_bind]
      obtain ⟨_ | _, _⟩ := (Holding.read F c request.triple).run.run replay <;> rfl
  all_goals rfl

theorem corShare_run (k : Checker) (point : EvaluationPoint) :
    (corShare point).run.run k.registers = outcome k (k.corShare point) := by
  obtain ⟨F, c, server, leader, servers, _ | request | _ | _⟩ := k
  case holding =>
    unfold corShare Checker.corShare
    simp only [expectState_bind_run, registers, Checker.state, Phase.state, ↓reduceIte]
    rw [Answer.bind_run, Answer.get_run]
    dsimp only
    rw [require_bind_run]
    by_cases domain : point.domain.size = c.domainSize
    swap
    · rw [if_neg domain, if_neg domain]
      rfl
    rw [if_pos domain, if_pos domain, Answer.bind_run, Answer.lift_run]
    cases (request.evaluate F c point).mapError CheckerError.polynomial <;> rfl
  all_goals rfl

theorem cor_run (k : Checker) (shares : List CorShare) :
    (cor shares).run.run k.registers = (k.cor shares, k.registers) := by
  obtain ⟨F, c, server, leader, servers, _ | _ | _ | _⟩ := k
  case evaluated =>
    unfold cor Checker.cor Checker.expectCount
    simp only [expectState_bind_run, registers, Checker.state, Phase.state, ↓reduceIte]
    rw [expectCount_bind_run]
    dsimp only
    split <;> rfl
  all_goals rfl

theorem outShare_run (k : Checker) (sums : Cor) (key : Key) :
    (outShare sums key).run.run k.registers = outcome k (k.outShare sums key) := by
  obtain ⟨F, c, server, leader, servers, _ | _ | _ | _⟩ := k <;> rfl

theorem outputIsValid_run (k : Checker) (shares : List OutShare) :
    (outputIsValid shares).run.run k.registers = (k.outputIsValid shares, k.registers) := by
  obtain ⟨F, c, server, leader, servers, _ | _ | _ | _⟩ := k
  case finished =>
    unfold outputIsValid Checker.outputIsValid Checker.expectCount
    simp only [expectState_bind_run, registers, Checker.state, Phase.state, ↓reduceIte]
    rw [expectCount_bind_run]
    dsimp only
    split <;> rfl
  all_goals rfl

theorem outputShares_run (k : Checker) :
    outputShares.run.run k.registers = (k.outputShares, k.registers) := by
  obtain ⟨F, c, server, leader, servers, _ | _ | _ | _⟩ := k <;> rfl

end Registers

/-- The program answers every call as the checker does, and stores what the checker then has. -/
theorem perform_registers (k : Checker) (call : Command) :
    k.registers.perform call = ((k.perform call).1, (k.perform call).2.registers) := by
  rw [Registers.perform, perform]
  cases call with
  | setRequest request =>
    rw [Registers.routine, Answer.bind_run, Registers.setRequest_run, attempt]
    cases k.setRequest request <;> rfl
  | corShare point =>
    rw [Registers.routine, Answer.bind_run, Registers.corShare_run, attempt]
    cases k.corShare point <;> rfl
  | cor shares =>
    rw [Registers.routine, Answer.bind_run, Registers.cor_run, attempt]
    cases k.cor shares <;> rfl
  | outShare sums key =>
    rw [Registers.routine, Answer.bind_run, Registers.outShare_run, attempt]
    cases k.outShare sums key <;> rfl
  | outputIsValid shares =>
    rw [Registers.routine, Answer.bind_run, Registers.outputIsValid_run, attempt]
    cases k.outputIsValid shares <;> rfl
  | outputShares =>
    rw [Registers.routine, Answer.bind_run, Registers.outputShares_run, attempt]
    cases k.outputShares <;> rfl
  | reset => rfl

theorem after_registers (k : Checker) (calls : List Command) :
    after Registers.perform k.registers calls = (after perform k calls).registers := by
  induction calls generalizing k with
  | nil => rfl
  | cons call calls ih => rw [after, perform_registers, ih, after]

theorem answers_registers (k : Checker) (calls : List Command) :
    answers Registers.perform k.registers calls = answers perform k calls := by
  induction calls generalizing k with
  | nil => rfl
  | cons call calls ih => rw [answers, perform_registers, ih, answers]

end PrivateSums.Checker
