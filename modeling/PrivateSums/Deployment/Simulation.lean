import PrivateSums.Deployment.Schedule.Run
import PrivateSums.Schema.Sample
import PrivateSums.Settings.Basic

/-!
A trial of a deployment with random submissions, some of them of valid values and some of random
inputs. All are submitted at the same time, and the outputs of the accepted ones are summed.
-/

namespace PrivateSums.Simulation

/-- A submission, and the inputs that it shares. -/
structure Trial where
  honest : Bool
  inputs : List Nat
  submission : Submission

structure Tally where
  accepted : Nat
  rejected : Nat
  /-- The honest submissions among the rejected. -/
  falseRejects : Nat
  errors : Nat
  deriving DecidableEq, Repr

structure Report where
  tally : Tally
  /-- Every output with the sum of its values over the accepted submissions. -/
  totals : List (String × Nat)
  deriving DecidableEq, Repr

namespace Report

def text (r : Report) : String :=
  s!"accepted: {r.tally.accepted}  rejected: {r.tally.rejected}  errors: {r.tally.errors}\n" ++
    String.join (r.totals.map fun (name, total) => s!"  {name} = {total}\n")

/-- Whether every honest submission was accepted and none failed. -/
def isClean (r : Report) : Bool := r.tally.falseRejects == 0 && r.tally.errors == 0

end Report

def Tally.empty : Tally := ⟨0, 0, 0, 0⟩

/-- Counts an outcome. A submission that did not return failed. -/
def Tally.count (t : Tally) (honest : Bool) : Option (Except ServerError Verdict) → Tally
  | some (.ok v) =>
    if v.accepted then { t with accepted := t.accepted + 1 }
    else { t with
      rejected := t.rejected + 1
      falseRejects := t.falseRejects + if honest then 1 else 0 }
  | _ => { t with errors := t.errors + 1 }

/-- Adds an outcome to the totals if it is an acceptance. -/
def addOutcome (F : Field) (totals : List Nat) : Option (Except ServerError Verdict) → List Nat
  | some (.ok v) => if v.accepted then v.addTo F totals else totals
  | _ => totals

def report (F : Field) (c : Circuit)
    (outcomes : List (Bool × Option (Except ServerError Verdict))) : Report :=
  let names := c.outputs.toList.map (·.name)
  let totals := (outcomes.map (·.2)).foldl (addOutcome F) (names.map fun _ => 0)
  { tally := outcomes.foldl (fun t (honest, outcome) => t.count honest outcome) .empty
    totals := names.zip totals }

variable {σ : Type} [WordSource σ]

def randomInputs (F : Field) : Nat → StateM σ (List Nat)
  | 0 => return []
  | n + 1 => do
    let first ← F.random
    let rest ← randomInputs F n
    return first :: rest

/-- The trial of a number: the first `requests` are honest, and leaders take turns. -/
def trial (F : Field) (s : Schema) (servers requests number : Nat) :
    ExceptT CheckerError (StateM σ) Trial := do
  let honest := decide (number < requests)
  let leader := number % servers
  let inputs ←
    if honest then do
      let values ← (Schema.randomValues s.measures : StateM σ (List Value))
      s.encode F values
    else (randomInputs F s.circuit.numInputs : StateM σ (List Nat))
  let shares ← ClientRequest.ofInputs F s.circuit inputs servers leader
  let submission := Submission.start .reliable number.toUInt64 leader.toUInt64 shares
  return { honest, inputs, submission }

/-- Runs a deployment of these settings on honest and invalid submissions. -/
def run (settings : Settings) (requests invalid : Nat) (source : σ) :
    Except ServerError Report := do
  let F := settings.preset.field
  let schema ← (Schema.ofMeasures F settings.measures).mapError .checker
  let (trials, source) :=
    ((List.range (requests + invalid)).mapM
      (trial F schema settings.servers requests)).run.run source
  let trials ← trials.mapError ServerError.checker
  let d ← Deployment.start F schema.circuit settings.servers settings.maxPending settings.rotation
    source
  let (_, submissions) := d.run (trials.map (·.submission))
  return report F schema.circuit
    (List.zipWith (fun trial s => (trial.honest, Submission.result? s)) trials submissions)

end PrivateSums.Simulation
