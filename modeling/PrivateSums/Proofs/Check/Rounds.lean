import PrivateSums.Proofs.Check.Holding

/-!
The check of one request by all servers together. The sum of their product checks is the value of
one polynomial, which is zero just when the products and the triple are right.
-/

open scoped Polynomial

namespace PrivateSums

namespace Checker

/-- Every server's checker, in server order, after taking in its request. -/
def admitAll (F : Field) (c : Circuit) (leader : Nat) (requests : List ClientRequest) :
    Except CheckerError (List Checker) :=
  requests.zipIdx.mapM fun (request, server) =>
    (new F c server leader requests.length).setRequest request

/-- Both rounds of all servers: what each sends in the first, and what each answers to the sum. -/
def rounds {α : Type} (checkers : List Checker) (point : EvaluationPoint)
    (answer : Checker → Cor → Except CheckerError α) :
    Except CheckerError (List CorShare × List α) := do
  let first ← checkers.mapM (·.corShare point)
  let shares := first.map (·.1)
  let answers ← (first.map (·.2)).mapM fun k => do answer k (← k.cor shares)
  return (shares, answers)

/-- The share that a checker has of a gate's wire. -/
def share (k : Checker) (gate : Nat) : Nat :=
  match k.phase with
  | .idle => 0
  | .holding request | .evaluated request _ | .finished request _ => request.wires.at gate

/-- The value that all servers' shares of a gate's wire make up. -/
def reconstruct (F : Field) (checkers : List Checker) (gate : Nat) : Nat :=
  F.sum (checkers.map (·.share gate))

end Checker

/-- A server and what it holds. -/
structure Party where
  server : Nat
  holding : Holding

namespace Party

variable (F : Field) (c : Circuit) (leader : Nat) (point : EvaluationPoint) (ps : List Party)

/-- The server's checker before the first round. -/
def checker (servers : Nat) (p : Party) : Checker :=
  { Checker.new F c p.server leader servers with phase := .holding p.holding }

def evaluations (p : Party) : Evaluations := p.holding.evaluations F c point

def corShare (p : Party) : CorShare := p.holding.corShare F (p.evaluations F c point)

/-- The sums of all shares of the first round. -/
def cor : Cor where
  d := F.sum (ps.map fun p => (p.corShare F c point).d)
  e := F.sum (ps.map fun p => (p.corShare F c point).e)

/-- The server's checker after the first round. -/
def evaluated (servers : Nat) (p : Party) : Checker :=
  { p.checker F c leader servers with
    phase := .evaluated p.holding (p.evaluations F c point) }

/-- The server's share of the product check. -/
def productCheck (p : Party) : Nat :=
  p.holding.productCheck F (p.server == leader) (p.evaluations F c point) (cor F c point ps)

/-- The server's share of the combination of all checks. -/
def outShare (coefficients : List Nat) (p : Party) : OutShare where
  check := p.holding.combine F c (p.productCheck F c leader point ps) coefficients

/-- The server's checker after the second round. -/
def finished (servers : Nat) (p : Party) : Checker :=
  { p.checker F c leader servers with
    phase := .finished p.holding (p.evaluations F c point) }

variable {F c leader ps} {d : CircuitDomain} {k : Nat}

theorem corShare_checker (hd : d.Valid F k) (size : c.domainSize = 2 ^ k) {p : Party}
    (complete : p.holding.Complete c) (servers x : Nat) :
    (p.checker F c leader servers).corShare (.ofPoint F d x) =
      .ok (p.corShare F c (.ofPoint F d x), p.evaluated F c leader (.ofPoint F d x) servers) := by
  have domain : (EvaluationPoint.ofPoint F d x).domain.size = c.domainSize :=
    hd.size_eq.trans size.symm
  have evaluate := Holding.evaluate_eq_ok (F := F) (size ▸ hd.sized) complete x
  simp [Checker.corShare, checker, Checker.new, domain, evaluate]
  exact ⟨rfl, rfl⟩

theorem cor_evaluated (point : EvaluationPoint) (p : Party) :
    (p.evaluated F c leader point ps.length).cor (ps.map (corShare F c point)) =
      .ok (cor F c point ps) := by
  simp [Checker.cor, evaluated, checker, Checker.new, Checker.expectCount, cor, Function.comp_def]

/-- The first round of complete parties is never refused. -/
theorem rounds_eq {α : Type} (hd : d.Valid F k) (size : c.domainSize = 2 ^ k)
    (complete : ∀ p ∈ ps, p.holding.Complete c) (x : Nat)
    (answer : Checker → Cor → Except CheckerError α) :
    Checker.rounds (ps.map (checker F c leader ps.length)) (.ofPoint F d x) answer = do
      let answers ← ps.mapM fun p =>
        answer (p.evaluated F c leader (.ofPoint F d x) ps.length) (cor F c (.ofPoint F d x) ps)
      return (ps.map (corShare F c (.ofPoint F d x)), answers) := by
  have first : (ps.map (checker F c leader ps.length)).mapM (·.corShare (.ofPoint F d x)) =
      .ok (ps.map fun p => (p.corShare F c (.ofPoint F d x),
        p.evaluated F c leader (.ofPoint F d x) ps.length)) := by
    rw [List.mapM_map]
    exact Answer.mapM_eq_map fun p hp => corShare_checker hd size (complete p hp) ps.length x
  rw [Checker.rounds, first, Answer.ok_bind, List.map_map, List.map_map]
  dsimp only
  rw [List.mapM_map]
  congr 1
  refine congrArg (List.mapM · ps) (funext fun p => ?_)
  exact congrArg (· >>= answer _) (cor_evaluated _ p)

theorem productChecks_eq (hd : d.Valid F k) (size : c.domainSize = 2 ^ k)
    (complete : ∀ p ∈ ps, p.holding.Complete c) (x : Nat) :
    Checker.rounds (ps.map (checker F c leader ps.length)) (.ofPoint F d x) Checker.productCheck =
      .ok (ps.map (corShare F c (.ofPoint F d x)),
        ps.map (productCheck F c leader (.ofPoint F d x) ps)) := by
  have answers (p : Party) :
      Checker.productCheck (p.evaluated F c leader (.ofPoint F d x) ps.length)
        (cor F c (.ofPoint F d x) ps) = .ok (p.productCheck F c leader (.ofPoint F d x) ps) := rfl
  rw [rounds_eq hd size complete, Answer.mapM_eq_map fun p _ => answers p]
  rfl

theorem outShares_eq (hd : d.Valid F k) (size : c.domainSize = 2 ^ k)
    (complete : ∀ p ∈ ps, p.holding.Complete c) (x : Nat) (coefficients : List Nat) :
    Checker.rounds (ps.map (checker F c leader ps.length)) (.ofPoint F d x)
      (fun k cor => k.outShareWith cor coefficients) =
        .ok (ps.map (corShare F c (.ofPoint F d x)), ps.map fun p =>
          (p.outShare F c leader (.ofPoint F d x) ps coefficients,
            p.finished F c leader (.ofPoint F d x) ps.length)) := by
  have answers (p : Party) :
      (p.evaluated F c leader (.ofPoint F d x) ps.length).outShareWith
        (cor F c (.ofPoint F d x) ps) coefficients =
          .ok (p.outShare F c leader (.ofPoint F d x) ps coefficients,
            p.finished F c leader (.ofPoint F d x) ps.length) := rfl
  rw [rounds_eq hd size complete, Answer.mapM_eq_map fun p _ => answers p]
  rfl

/-- With coefficients from a key, every server expands it alike. -/
theorem keyedOutShares_eq (hd : d.Valid F k) (size : c.domainSize = 2 ^ k)
    (complete : ∀ p ∈ ps, p.holding.Complete c) (x : Nat) (key : Key) :
    Checker.rounds (ps.map (checker F c leader ps.length)) (.ofPoint F d x)
      (fun k cor => k.outShare cor key) =
        .ok (ps.map (corShare F c (.ofPoint F d x)), ps.map fun p =>
          (p.outShare F c leader (.ofPoint F d x) ps (Holding.coefficients F c key),
            p.finished F c leader (.ofPoint F d x) ps.length)) := by
  have answers (p : Party) : (p.evaluated F c leader (.ofPoint F d x) ps.length).outShare
      (cor F c (.ofPoint F d x) ps) key =
        .ok (p.outShare F c leader (.ofPoint F d x) ps (Holding.coefficients F c key),
          p.finished F c leader (.ofPoint F d x) ps.length) := rfl
  rw [rounds_eq hd size complete, Answer.mapM_eq_map fun p _ => answers p]
  rfl

theorem outputIsValid_finished (point : EvaluationPoint) (p : Party) (share : Party → OutShare) :
    (p.finished F c leader point ps.length).outputIsValid (ps.map share) =
      .ok (F.sum (ps.map fun p => (share p).check) == 0) := by
  simp [Checker.outputIsValid, finished, checker, Checker.new, Checker.expectCount,
    Function.comp_def]

theorem outputShares_finished (point : EvaluationPoint) (servers : Nat) (p : Party) :
    (p.finished F c leader point servers).outputShares =
      .ok (c.outputValues p.holding.wires) := rfl

/-- The sum over all servers of a residue that each holds. -/
def total {α : Type} [AddMonoid α] (ps : List Party) (f : Party → α) : α := (ps.map f).sum

/-- The residue that all servers reconstruct on a gate's wire. -/
def wires (F : Field) (ps : List Party) (gate : Nat) : F.Residue :=
  total ps fun p => p.holding.wires.residue F gate

/-- One server of all adds what is public. -/
def OneLeader (F : Field) (leader : Nat) (ps : List Party) : Prop :=
  total ps (fun p => Circuit.one F (p.server == leader)) = 1

theorem oneLeader_of_servers {n : Nat} (servers : ps.map Party.server = List.range n)
    (h : leader < n) : OneLeader F leader ps := by
  have sum : total ps (fun p => Circuit.one F (p.server == leader)) =
      ((List.range n).map fun s => Circuit.one F (s == leader)).sum := by
    rw [← servers, List.map_map]
    rfl
  rw [OneLeader, sum, Circuit.sum_one h]

section Sums

variable {R : Type} [CommRing R]

theorem total_sub (f g : Party → R) : total ps (fun p => f p - g p) = total ps f - total ps g := by
  unfold total
  induction ps with
  | nil => simp
  | cons p ps ih =>
    simp only [List.map_cons, List.sum_cons, ih]
    ring

theorem total_mul_left (r : R) (f : Party → R) :
    total ps (fun p => r * f p) = r * total ps f :=
  List.sum_map_mul_left ..

theorem total_add (f g : Party → R) : total ps (fun p => f p + g p) = total ps f + total ps g :=
  List.sum_map_add

end Sums

variable [Fact F.modulus.Prime] (F c d ps)

/-- The first factor, reconstructed. -/
noncomputable def left : F.Residue[X] := total ps fun p => p.holding.left F c d

/-- The second factor, reconstructed. -/
noncomputable def right : F.Residue[X] := total ps fun p => p.holding.right F c d

/-- The claimed product, reconstructed. -/
noncomputable def product : F.Residue[X] := total ps fun p => p.holding.product F c d

/-- What the reconstructed triple is off by. -/
def offset : F.Residue :=
  total ps (fun p => (p.holding.triple.c : F.Residue)) -
    total ps (fun p => (p.holding.triple.a : F.Residue)) *
      total ps (fun p => (p.holding.triple.b : F.Residue))

/-- The polynomial whose value is checked. -/
noncomputable def checked : F.Residue[X] :=
  .X * (left F c ps d * right F c ps d - product F c ps d) + .C (offset F ps)

variable {F c d ps}

theorem eval_total (x : F.Residue) (f : Party → F.Residue[X]) :
    (total ps f).eval x = total ps fun p => (f p).eval x := by
  rw [total, Polynomial.eval_listSum, List.map_map]
  rfl

theorem total_congr {α : Type} [AddMonoid α] {f g : Party → α} (h : ∀ p ∈ ps, f p = g p) :
    total ps f = total ps g :=
  congrArg List.sum (List.map_congr_left h)

theorem cast_cor_d (hd : d.Valid F k) (size : c.domainSize = 2 ^ k) (x : Nat) :
    (((cor F c (.ofPoint F d x) ps).d : Nat) : F.Residue) =
      (left F c ps d).eval (x : F.Residue) -
        total ps fun p => (p.holding.triple.a : F.Residue) := by
  rw [cor, F.cast_sum, List.map_map, left, eval_total, ← total_sub]
  refine total_congr fun p _ => ?_
  rw [Function.comp, corShare, Holding.corShare, F.cast_sub, evaluations,
    Holding.cast_evaluations_left hd size]

theorem cast_cor_e (hd : d.Valid F k) (size : c.domainSize = 2 ^ k) (x : Nat) :
    (((cor F c (.ofPoint F d x) ps).e : Nat) : F.Residue) =
      x * (right F c ps d).eval (x : F.Residue) -
        total ps fun p => (p.holding.triple.b : F.Residue) := by
  rw [cor, F.cast_sum, List.map_map, right, eval_total, ← total_mul_left, ← total_sub]
  refine total_congr fun p _ => ?_
  rw [Function.comp, corShare, Holding.corShare, F.cast_sub, evaluations,
    Holding.cast_evaluations_right hd size]

/-- The product checks of all servers sum to the value of the checked polynomial. -/
theorem total_productCheck (hd : d.Valid F k) (size : c.domainSize = 2 ^ k)
    (complete : ∀ p ∈ ps, p.holding.Complete c) (one : OneLeader F leader ps) (x : Nat) :
    total ps (fun p => ((p.productCheck F c leader (.ofPoint F d x) ps : Nat) : F.Residue)) =
      (checked F c ps d).eval (x : F.Residue) := by
  have each (p : Party) (hp : p ∈ ps) :
      ((p.productCheck F c leader (.ofPoint F d x) ps : Nat) : F.Residue) =
        (cor F c (.ofPoint F d x) ps).d * p.holding.triple.b +
          (cor F c (.ofPoint F d x) ps).e * p.holding.triple.a + p.holding.triple.c -
          x * (p.holding.product F c d).eval (x : F.Residue) +
          (cor F c (.ofPoint F d x) ps).d * (cor F c (.ofPoint F d x) ps).e *
            Circuit.one F (p.server == leader) := by
    rw [productCheck, Holding.cast_productCheck, evaluations,
      Holding.cast_evaluations_product hd size (complete p hp)]
    ring
  have product : (Party.product F c ps d).eval (x : F.Residue) =
      total ps fun p => (p.holding.product F c d).eval (x : F.Residue) := eval_total _ _
  rw [total_congr each, total_add, total_sub, total_add, total_add, total_mul_left,
    total_mul_left, total_mul_left, total_mul_left, one, cast_cor_d hd size, cast_cor_e hd size,
    ← product, checked, offset]
  simp only [Polynomial.eval_add, Polynomial.eval_mul, Polynomial.eval_sub, Polynomial.eval_X,
    Polynomial.eval_C]
  ring

end Party

end PrivateSums
