import PrivateSums.Proofs.Check.Admission
import PrivateSums.Proofs.Check.Registers

/-!
What a checker can be made to do. Whatever it is asked, and in whatever order, between two resets it
takes in one request, sends one share in each round, and answers what is out of turn with an error
that changes nothing.
-/

namespace PrivateSums.Checker

/-- How a call that succeeds is answered, and what it leaves behind. -/
inductive Grants (k : Checker) : Command → Reply → Checker → Prop
  | setRequest {request : ClientRequest} {holding : Holding} (phase : k.phase = .idle)
      (complete : holding.Complete k.circuit) :
      Grants k (.setRequest request) .done { k with phase := .holding holding }
  | corShare {point : EvaluationPoint} {holding : Holding} (phase : k.phase = .holding holding)
      (share : CorShare) (e : Evaluations) :
      Grants k (.corShare point) (.corShare share) { k with phase := .evaluated holding e }
  | cor {shares : List CorShare} {holding : Holding} {e : Evaluations}
      (phase : k.phase = .evaluated holding e) (sums : Cor) : Grants k (.cor shares) (.cor sums) k
  | outShare {sums : Cor} {key : Key} {holding : Holding} {e : Evaluations}
      (phase : k.phase = .evaluated holding e) (share : OutShare) :
      Grants k (.outShare sums key) (.outShare share) { k with phase := .finished holding e }
  | outputIsValid {shares : List OutShare} {holding : Holding} {e : Evaluations}
      (phase : k.phase = .finished holding e) (isValid : Bool) :
      Grants k (.outputIsValid shares) (.verdict isValid) k
  | outputShares {holding : Holding} {e : Evaluations} (phase : k.phase = .finished holding e) :
      Grants k .outputShares (.outputShares (k.circuit.outputValues holding.wires)) k
  | reset : Grants k .reset .done k.reset

/-- An error says that it is not a call's turn, or what is wrong with its arguments. -/
inductive Denies (k : Checker) : Command → CheckerError → Prop
  | outOfSequence {call : Command} {expected : CheckerState} (ne : expected ≠ k.state) :
      Denies k call (.protocolSequence expected k.state)
  | malformed {request : ClientRequest} (cause : Malformation) :
      Denies k (.setRequest request) (.malformedRequest cause)
  | mismatch {point : EvaluationPoint} (expected found : Nat) :
      Denies k (.corShare point) (.precomputeMismatch expected found)
  | evaluation {point : EvaluationPoint} {holding : Holding} {cause : PolynomialError}
      (phase : k.phase = .holding holding) (size : point.domain.size = k.circuit.domainSize)
      (fails : holding.evaluate k.field k.circuit point = .error cause) :
      Denies k (.corShare point) (.polynomial cause)
  | count {call : Command} (found : Nat) : Denies k call (.wrongShareCount k.servers found)

variable {k : Checker}

theorem eq_new_of_idle (idle : k.phase = .idle) :
    k = new k.field k.circuit k.server k.leader k.servers := by
  obtain ⟨F, c, server, leader, servers, phase⟩ := k
  cases idle
  rfl

theorem outOfSequence_eq {α : Type} (expected : CheckerState) :
    (k.outOfSequence expected : Except CheckerError α) =
      .error (.protocolSequence expected k.state) := rfl

/-- A call is granted or refused. -/
def Settles (k : Checker) (call : Command) : Except CheckerError (Reply × Checker) → Prop
  | .ok (reply, k') => k.Grants call reply k'
  | .error e => k.Denies call e

theorem settles_outOfSequence {call : Command} {expected : CheckerState} (ne : expected ≠ k.state) :
    k.Settles call (k.outOfSequence expected) :=
  .outOfSequence ne

theorem settles_setRequest (request : ClientRequest) :
    k.Settles (.setRequest request) (k.attempt (.setRequest request)) := by
  cases phase : k.phase with
  | idle =>
    cases admitted : k.setRequest request with
    | ok k' =>
      simp only [attempt, admitted, Answer.ok_bind, Answer.pure_eq]
      rw [eq_new_of_idle phase] at admitted
      obtain ⟨-, rfl⟩ := ClientRequest.setRequest_eq_ok_iff.1 admitted
      exact .setRequest phase ClientRequest.complete_party
    | error e =>
      simp only [attempt, admitted, Answer.error_bind]
      rw [eq_new_of_idle phase] at admitted
      obtain ⟨cause, rfl⟩ := ClientRequest.of_setRequest_eq_error admitted
      exact .malformed cause
  | _ =>
    have ne : CheckerState.idle ≠ k.state := by simp [state, phase, Phase.state]
    simp only [attempt, setRequest, phase, outOfSequence_eq, Answer.error_bind]
    exact settles_outOfSequence ne

theorem settles_corShare (point : EvaluationPoint) :
    k.Settles (.corShare point) (k.attempt (.corShare point)) := by
  cases phase : k.phase with
  | holding holding =>
    simp only [attempt, corShare, phase]
    by_cases size : point.domain.size = k.circuit.domainSize
    swap
    · rw [if_neg size]
      exact .mismatch ..
    rw [if_pos size]
    cases evaluated : holding.evaluate k.field k.circuit point with
    | ok e => exact .corShare phase _ e
    | error cause => exact .evaluation phase size evaluated
  | _ =>
    have ne : CheckerState.hasRequest ≠ k.state := by simp [state, phase, Phase.state]
    simp only [attempt, corShare, phase, outOfSequence_eq, Answer.error_bind]
    exact settles_outOfSequence ne

theorem settles_cor (shares : List CorShare) :
    k.Settles (.cor shares) (k.attempt (.cor shares)) := by
  cases phase : k.phase with
  | evaluated holding e =>
    simp only [attempt, cor, phase, expectCount]
    split
    · exact .cor phase _
    · exact .count _
  | _ =>
    have ne : CheckerState.layer1Done ≠ k.state := by simp [state, phase, Phase.state]
    simp only [attempt, cor, phase, outOfSequence_eq, Answer.error_bind]
    exact settles_outOfSequence ne

theorem settles_outShare (sums : Cor) (key : Key) :
    k.Settles (.outShare sums key) (k.attempt (.outShare sums key)) := by
  cases phase : k.phase with
  | evaluated holding e =>
    simp only [attempt, outShare, outShareWith, productCheck, phase]
    exact .outShare phase _
  | _ =>
    have ne : CheckerState.layer1Done ≠ k.state := by simp [state, phase, Phase.state]
    simp only [attempt, outShare, outShareWith, phase, outOfSequence_eq, Answer.error_bind]
    exact settles_outOfSequence ne

theorem settles_outputIsValid (shares : List OutShare) :
    k.Settles (.outputIsValid shares) (k.attempt (.outputIsValid shares)) := by
  cases phase : k.phase with
  | finished holding e =>
    simp only [attempt, outputIsValid, phase, expectCount]
    split
    · exact .outputIsValid phase _
    · exact .count _
  | _ =>
    have ne : CheckerState.finished ≠ k.state := by simp [state, phase, Phase.state]
    simp only [attempt, outputIsValid, phase, outOfSequence_eq, Answer.error_bind]
    exact settles_outOfSequence ne

theorem settles_outputShares : k.Settles .outputShares (k.attempt .outputShares) := by
  cases phase : k.phase with
  | finished holding e =>
    simp only [attempt, outputShares, phase]
    exact .outputShares phase
  | _ =>
    have ne : CheckerState.finished ≠ k.state := by simp [state, phase, Phase.state]
    simp only [attempt, outputShares, phase, outOfSequence_eq, Answer.error_bind]
    exact settles_outOfSequence ne

theorem settles_attempt (call : Command) : k.Settles call (k.attempt call) := by
  cases call with
  | setRequest request => exact settles_setRequest request
  | corShare point => exact settles_corShare point
  | cor shares => exact settles_cor shares
  | outShare sums key => exact settles_outShare sums key
  | outputIsValid shares => exact settles_outputIsValid shares
  | outputShares => exact settles_outputShares
  | reset => exact .reset

/-- A call either grants its reply, or errs and leaves the checker as it is. -/
theorem perform_cases (k : Checker) (call : Command) :
    (∃ reply, (k.perform call).1 = .ok reply ∧ k.Grants call reply (k.perform call).2) ∨
      ∃ e, k.perform call = (.error e, k) ∧ k.Denies call e := by
  have settled := settles_attempt (k := k) call
  rw [perform]
  cases attempted : k.attempt call with
  | ok granted =>
    rw [attempted] at settled
    exact .inl ⟨granted.1, rfl, settled⟩
  | error e =>
    rw [attempted] at settled
    exact .inr ⟨e, rfl, settled⟩

/-- What a call that succeeds can carry a checker through. -/
inductive Advance
  | admission
  | firstRound
  | secondRound
  deriving DecidableEq

def Command.advance? : Command → Option Advance
  | .setRequest _ => some .admission
  | .corShare _ => some .firstRound
  | .outShare .. => some .secondRound
  | .cor _ | .outputIsValid _ | .outputShares | .reset => none

/-- What the machine has been carried through since the last reset, after one more call. -/
def progress (past : List Advance) : Command → Except CheckerError Reply → List Advance
  | .reset, .ok _ => []
  | call, .ok _ => past ++ call.advance?.toList
  | _, .error _ => past

/-- What calls have carried the machine through since the last reset. -/
def passed {σ : Type} (perform : σ → Command → Except CheckerError Reply × σ) (past : List Advance)
    (s : σ) : List Command → List Advance
  | [] => past
  | call :: calls =>
    passed perform (progress past call (perform s call).1) (perform s call).2 calls

theorem passed_registers (past : List Advance) (k : Checker) (calls : List Command) :
    passed Registers.perform past k.registers calls = passed perform past k calls := by
  induction calls generalizing past k with
  | nil => rfl
  | cons call calls ih => rw [passed, perform_registers, ih, passed]

/-- What a checker in this state has been carried through. -/
def Advance.before : CheckerState → List Advance
  | .idle => []
  | .hasRequest => [admission]
  | .layer1Done => [admission, firstRound]
  | .finished => [admission, firstRound, secondRound]

/-- A checker that was `k₀` when it was last new or reset, and what it has been carried through. -/
structure Reached (k₀ : Checker) (past : List Advance) (k : Checker) : Prop where
  reset_eq : k.reset = k₀
  past_eq : past = Advance.before k.state
  complete : ∀ holding, k.registers.request? = some holding → holding.Complete k.circuit

variable {k₀ : Checker} {past : List Advance}

theorem reached_new (F : Field) (c : Circuit) (server leader servers : Nat) :
    (new F c server leader servers).Reached [] (new F c server leader servers) where
  reset_eq := rfl
  past_eq := rfl
  complete := by rintro _ ⟨⟩

theorem Reached.perform (reached : k₀.Reached past k) (call : Command) :
    k₀.Reached (progress past call (k.perform call).1) (k.perform call).2 := by
  obtain ⟨rfl, rfl, complete⟩ := reached
  obtain ⟨reply, replied, granted⟩ | ⟨e, failed, -⟩ := perform_cases k call
  · rw [replied]
    generalize (k.perform call).2 = k' at granted
    cases granted with
    | setRequest phase whole =>
      refine ⟨rfl, ?_, ?_⟩
      · rw [state, phase]
        rfl
      · rintro _ ⟨⟩
        exact whole
    | corShare phase =>
      have held := complete _ (by rw [registers, phase])
      refine ⟨rfl, ?_, ?_⟩
      · rw [state, phase]
        rfl
      · rintro _ ⟨⟩
        exact held
    | outShare phase =>
      have held := complete _ (by rw [registers, phase])
      refine ⟨rfl, ?_, ?_⟩
      · rw [state, phase]
        rfl
      · rintro _ ⟨⟩
        exact held
    | reset => exact ⟨rfl, rfl, by rintro _ ⟨⟩⟩
    | cor | outputIsValid | outputShares => exact ⟨rfl, List.append_nil _, complete⟩
  · rw [failed]
    cases call <;> exact ⟨rfl, rfl, complete⟩

theorem Reached.after (reached : k₀.Reached past k) (calls : List Command) :
    k₀.Reached (passed Checker.perform past k calls) (after Checker.perform k calls) := by
  induction calls generalizing past k with
  | nil => exact reached
  | cons call calls ih => exact ih (reached.perform call)

/-- A call whose evaluation point, if it has one, is over this field. The point's domain may be any
circuit's. -/
def Command.IsOver (F : Field) : Command → Prop
  | .corShare point => ∃ c d x, CircuitDomain.ofCircuit F c = .ok d ∧ point = .ofPoint F d x
  | _ => True

/-- A checker that was `k₀` when it was new, that has been carried through `past` since it was last
reset, and that stores `r`. -/
structure Disciplined (k₀ : Checker) (past : List Advance) (r : Registers) : Prop where
  /-- Between two resets there is one order in which calls carry the checker on. -/
  in_order : past <+: [.admission, .firstRound, .secondRound]
  /-- No request is answered with two shares of one round. -/
  once : past.count .admission ≤ 1 ∧ past.count .firstRound ≤ past.count .admission ∧
    past.count .secondRound ≤ past.count .admission
  /-- The shares of the first round are summed between the rounds only. -/
  cor : ∀ shares reply, (r.perform (.cor shares)).1 = .ok reply → past = [.admission, .firstRound]
  /-- A verdict is given after the second round only. -/
  outputIsValid : ∀ shares reply, (r.perform (.outputIsValid shares)).1 = .ok reply →
    past = [.admission, .firstRound, .secondRound]
  /-- So are the outputs, and they are read off a request that is there. -/
  outputShares : ∀ reply, (r.perform .outputShares).1 = .ok reply →
    past = [.admission, .firstRound, .secondRound] ∧ ∃ holding, r.request? = some holding ∧
      reply = .outputShares (r.circuit.outputValues holding.wires)
  /-- An error changes nothing. -/
  refused : ∀ call e, (r.perform call).1 = .error e → (r.perform call).2 = r
  /-- Nothing that an operation looks for is missing. -/
  request_held : r.request?.isSome ↔ r.state ≠ .idle
  evaluations_held : r.evaluations?.isSome ↔ r.state = .layer1Done ∨ r.state = .finished
  /-- A call out of turn is told the state that the checker is in. -/
  found : ∀ call expected found, (r.perform call).1 = .error (.protocolSequence expected found) →
    found = r.state ∧ expected ≠ r.state
  /-- The shares of a request are as many as its evaluation asks for. -/
  evaluated : ∀ call cause, call.IsOver r.field → (r.perform call).1 ≠ .error (.polynomial cause)
  /-- Once reset, the checker answers all that follows as a new one. -/
  renewed : ∀ further, answers Registers.perform (r.perform .reset).2 further =
    answers Registers.perform k₀.registers further

theorem before_prefix (state : CheckerState) :
    Advance.before state <+: [.admission, .firstRound, .secondRound] := by
  cases state <;> decide

theorem before_once (state : CheckerState) :
    (Advance.before state).count .admission ≤ 1 ∧
      (Advance.before state).count .firstRound ≤ (Advance.before state).count .admission ∧
      (Advance.before state).count .secondRound ≤ (Advance.before state).count .admission := by
  cases state <;> decide

/-- Over its own field a checker that was admitted to the rounds is always evaluated. -/
theorem Reached.not_polynomial (reached : k₀.Reached past k) {call : Command}
    (sameField : call.IsOver k.field) {cause : PolynomialError} :
    ¬k.Denies call (.polynomial cause) := by
  rintro (_ | _ | _ | ⟨phase, size, fails⟩)
  obtain ⟨c, d, x, domain, rfl⟩ := sameField
  have sized := CircuitDomain.sized_of_ofCircuit domain
  rw [← sized.size_eq, show d.size = _ from size] at sized
  rw [Holding.evaluate_eq_ok sized (reached.complete _ (by rw [registers, phase])) x] at fails
  cases fails

theorem Reached.disciplined (reached : k₀.Reached past k) : k₀.Disciplined past k.registers := by
  obtain ⟨rfl, rfl, complete⟩ := id reached
  have granted (call : Command) (reply : Reply) (h : (k.registers.perform call).1 = .ok reply) :
      ∃ k', k.Grants call reply k' := by
    rw [perform_registers] at h
    obtain ⟨reply', replied, granted⟩ | ⟨e, failed, -⟩ := perform_cases k call
    · obtain rfl := Except.ok.inj (h.symm.trans replied)
      exact ⟨_, granted⟩
    · rw [failed] at h
      cases h
  have refused (call : Command) (e : CheckerError) (h : (k.registers.perform call).1 = .error e) :
      (k.perform call).2 = k ∧ k.Denies call e := by
    rw [perform_registers] at h
    obtain ⟨reply, replied, -⟩ | ⟨e', failed, refused⟩ := perform_cases k call
    · cases h.symm.trans replied
    · rw [failed] at h ⊢
      obtain rfl := Except.error.inj h
      exact ⟨rfl, refused⟩
  constructor
  case in_order => exact before_prefix k.state
  case once => exact before_once k.state
  case cor =>
    intro shares reply h
    obtain ⟨_, _ | _ | ⟨phase, _⟩⟩ := granted _ _ h
    rw [state, phase]
    rfl
  case outputIsValid =>
    intro shares reply h
    obtain ⟨_, _ | _ | _ | _ | ⟨phase, _⟩⟩ := granted _ _ h
    rw [state, phase]
    rfl
  case outputShares =>
    intro reply h
    obtain ⟨_, _ | _ | _ | _ | _ | phase⟩ := granted _ _ h
    rw [state, phase]
    exact ⟨rfl, _, by rw [registers, phase], rfl⟩
  case refused =>
    intro call e h
    rw [perform_registers, (refused call e h).1]
  case request_held => cases phase : k.phase <;> simp [registers, state, phase, Phase.state]
  case evaluations_held => cases phase : k.phase <;> simp [registers, state, phase, Phase.state]
  case found =>
    intro call expected found h
    obtain ne | _ := (refused call _ h).2
    exact ⟨rfl, ne⟩
  case evaluated =>
    intro call cause sameField h
    exact reached.not_polynomial sameField (refused call _ h).2
  case renewed =>
    intro further
    rw [perform_registers]
    rfl

/-- Every sequence of calls to a new checker is answered with discipline, and as the program that
keeps its registers answers it. -/
theorem disciplined_of_new (F : Field) (c : Circuit) (server leader servers : Nat)
    (calls : List Command) :
    let k₀ := new F c server leader servers
    let r := after Registers.perform k₀.registers calls
    answers Registers.perform k₀.registers calls = answers perform k₀ calls ∧
      r = (after perform k₀ calls).registers ∧
      k₀.Disciplined (passed Registers.perform [] k₀.registers calls) r := by
  dsimp only
  rw [answers_registers, after_registers, passed_registers]
  exact ⟨rfl, rfl, ((reached_new F c server leader servers).after calls).disciplined⟩

end PrivateSums.Checker
