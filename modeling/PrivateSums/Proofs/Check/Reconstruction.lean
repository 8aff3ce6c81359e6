import PrivateSums.Proofs.Check.Completeness

/-!
What the shares of all servers make up. It can be read off what checkers hold, and it is what the
requests say: every server replays the shares of a client's values in the order they were shared in,
and all other wires are what their gates derive.
-/

open scoped Polynomial

namespace PrivateSums

def Phase.holding? : Phase → Option Holding
  | idle => none
  | holding request | evaluated request _ | finished request _ => some request

/-- What the shares of all servers make up. -/
structure Reconstruction (F : Field) where
  wire : Nat → F.Residue
  randomLeft : F.Residue
  randomRight : F.Residue
  randomProduct : F.Residue
  hint : Nat → F.Residue
  a : F.Residue
  b : F.Residue
  c : F.Residue

/-- The sum of the shares that all servers replay after `i` others. -/
def ClientRequest.replayed (F : Field) (leader : Nat) (requests : List ClientRequest) (i : Nat) :
    F.Residue :=
  (requests.zipIdx.map fun (request, server) =>
    (((Replay.fresh server leader request.hints).share F i : Nat) : F.Residue)).sum

namespace Reconstruction

def ofCheckers (F : Field) (checkers : List Checker) : Reconstruction F :=
  let sum (part : Holding → Nat) : F.Residue :=
    (checkers.map fun k => ((k.phase.holding?.elim 0 part : Nat) : F.Residue)).sum
  { wire gate := sum (·.wires.at gate)
    randomLeft := sum (·.randomLeft)
    randomRight := sum (·.randomRight)
    randomProduct := sum (·.randomProduct)
    hint i := sum (·.hints.getD i 0)
    a := sum (·.triple.a)
    b := sum (·.triple.b)
    c := sum (·.triple.c) }

/-- What requests say. The sums of the replayed shares are those of the inputs, of the products, of
both random values, of their product, and of the hints. A wire that is not shared is what its gate
derives from others, with constants counted once. The triple comes with the requests. -/
structure Replays {F : Field} (r : Reconstruction F) (c : Circuit) (leader : Nat)
    (requests : List ClientRequest) : Prop where
  shared : ∀ i (h : i < c.sharedGates.length),
    r.wire c.sharedGates[i] = ClientRequest.replayed F leader requests i
  derived : c.Linear F 1 r.wire
  randomLeft : r.randomLeft = ClientRequest.replayed F leader requests c.numShared
  randomRight : r.randomRight = ClientRequest.replayed F leader requests (c.numShared + 1)
  randomProduct : r.randomProduct = ClientRequest.replayed F leader requests (c.numShared + 2)
  hint : ∀ i < c.domainSize - 1,
    r.hint i = ClientRequest.replayed F leader requests (c.numShared + 3 + i)
  a : r.a = (requests.map fun q => (q.triple.a : F.Residue)).sum
  b : r.b = (requests.map fun q => (q.triple.b : F.Residue)).sum
  c : r.c = (requests.map fun q => (q.triple.c : F.Residue)).sum

/-- One value for every product, in gate order, by its gate and those of its factors. -/
def ofProducts {α : Type} (c : Circuit) (value : Nat → Nat → Nat → α) : List α :=
  c.gates.toList.zipIdx.filterMap fun
    | (.mul left right, gate) => some (value gate left right)
    | _ => none

variable {F : Field} (r : Reconstruction F) (c : Circuit)

/-- The first factor's values: a random one, the left operands in gate order, zeros. -/
def leftAt (i : Nat) : F.Residue :=
  (r.randomLeft :: ofProducts c fun _ left _ => r.wire left).getD i 0

/-- The second factor's values: a random one, the right operands in gate order, zeros. -/
def rightAt (i : Nat) : F.Residue :=
  (r.randomRight :: ofProducts c fun _ _ right => r.wire right).getD i 0

/-- The claimed product's values: that of the random ones, then hints and products in turns, with
zeros for the products that are missing. -/
def productAt : Nat → F.Residue
  | 0 => r.randomProduct
  | i + 1 =>
    if i % 2 = 0 then r.hint (i / 2)
    else (ofProducts c fun gate _ _ => r.wire gate).getD (i / 2) 0

/-- The combination of all checks that the verdict is about, for the polynomials `f`, `g` and `h`
through both factors' values and the product's. The coefficients are the draws from a key. -/
noncomputable def combination (f g h : F.Residue[X]) (x : Nat) (key : Key) : F.Residue :=
  let draw (i : Nat) : F.Residue := (((ElementStream.ofKey key).nth F i : Nat) : F.Residue)
  draw 0 * (x * (f.eval (x : F.Residue) * g.eval (x : F.Residue) - h.eval (x : F.Residue)) +
      r.c - r.a * r.b) +
    ∑ i : Fin c.zeroChecks.size, draw (i + 1) * r.wire (c.zeroChecks.getD i 0)

section ofProducts

variable {α : Type} {c : Circuit}

theorem ofProducts_congr {value value' : Nat → Nat → Nat → α}
    (h : ∀ gate left right : Nat, c.gates[gate]? = some (.mul left right) →
      value gate left right = value' gate left right) :
    ofProducts c value = ofProducts c value' := by
  apply List.filterMap_congr
  rintro ⟨gate, i⟩ mem
  have found := List.mk_mem_zipIdx_iff_getElem?.1 mem
  rw [Array.getElem?_toList] at found
  cases gate with
  | mul left right => exact congrArg some (h i left right found)
  | _ => rfl

/-- The factors of all products are listed in one order with the products. -/
theorem ofProducts_factors (f : Nat × Nat → α) :
    ofProducts c (fun _ left right => f (left, right)) = c.mulOperands.map f := by
  have from_any (gates : List Gate) (n : Nat) : ((gates.zipIdx n).filterMap fun
      | (.mul left right, _) => some (f (left, right))
      | _ => none) = (gates.filterMap Gate.operands?).map f := by
    induction gates generalizing n with
    | nil => rfl
    | cons gate gates ih =>
      cases gate with
      | mul left right => exact congrArg (f (left, right) :: ·) (ih (n + 1))
      | _ => exact ih (n + 1)
  exact from_any c.gates.toList 0

theorem ofProducts_gates (f : Nat → α) :
    ofProducts c (fun gate _ _ => f gate) = c.mulGates.map f := by
  have from_any (gates : List Gate) (n : Nat) : ((gates.zipIdx n).filterMap fun
      | (.mul _ _, gate) => some (f gate)
      | _ => none) = (((gates.zipIdx n).filter (Gate.isMul ·.1)).map (·.2)).map f := by
    induction gates generalizing n with
    | nil => rfl
    | cons gate gates ih =>
      rw [List.zipIdx_cons, List.filter_cons]
      cases gate with
      | mul left right => exact congrArg (f n :: ·) (ih (n + 1))
      | _ => exact ih (n + 1)
  exact from_any c.gates.toList 0

end ofProducts

end Reconstruction

/-! ### Requests determine what is checked -/

namespace Reconstruction.Replays

variable {F : Field} {r r' : Reconstruction F} {c : Circuit} {leader : Nat}
  {requests : List ClientRequest} (h : r.Replays c leader requests)
  (h' : r'.Replays c leader requests)

include h h'

theorem wire_eq (wf : c.WellFormed) {i : Nat} (hi : i < c.size) : r.wire i = r'.wire i := by
  apply Circuit.wires_eq_of_shared wf h.derived h'.derived _ i hi
  intro gate mem
  obtain ⟨i, hi, rfl⟩ := List.mem_iff_getElem.1 mem
  rw [h.shared i hi, h'.shared i hi]

theorem leftAt_eq (wf : c.WellFormed) : r.leftAt c = r'.leftAt c := by
  funext i
  rw [leftAt, leftAt, h.randomLeft, h'.randomLeft]
  congr 2
  apply ofProducts_congr
  intro gate left right found
  exact h.wire_eq h' wf (wf.factors_lt found).1

theorem rightAt_eq (wf : c.WellFormed) : r.rightAt c = r'.rightAt c := by
  funext i
  rw [rightAt, rightAt, h.randomRight, h'.randomRight]
  congr 2
  apply ofProducts_congr
  intro gate left right found
  exact h.wire_eq h' wf (wf.factors_lt found).2

theorem productAt_eq (wf : c.WellFormed) {i : Nat} (hi : i < 2 * c.domainSize - 1) :
    r.productAt c i = r'.productAt c i := by
  cases i with
  | zero => exact h.randomProduct.trans h'.randomProduct.symm
  | succ i =>
    rw [productAt, productAt]
    split
    · rw [h.hint _ (by omega), h'.hint _ (by omega)]
    · congr 1
      apply ofProducts_congr
      intro gate left right found
      exact h.wire_eq h' wf (Array.getElem?_eq_some_iff.1 found).1

theorem combination_eq (wf : c.WellFormed) (f g p : F.Residue[X]) (x : Nat) (key : Key) :
    r.combination c f g p x key = r'.combination c f g p x key := by
  rw [combination, combination, h.a, h.b, h.c, h'.a, h'.b, h'.c]
  congr 1
  apply Finset.sum_congr rfl
  intro i _
  have gate : c.zeroChecks.getD i 0 < c.size := by
    simpa using wf.zeroChecks_lt _ (Array.getElem_mem i.2)
  rw [h.wire_eq h' wf gate]

end Reconstruction.Replays

namespace Party

variable {F : Field} {c : Circuit} {leader : Nat} {ps : List Party}

theorem ofCheckers_checkers (servers : Nat) :
    Reconstruction.ofCheckers F (ps.map (checker F c leader servers)) = {
      wire := wires F ps
      randomLeft := total ps fun p => (p.holding.randomLeft : F.Residue)
      randomRight := total ps fun p => (p.holding.randomRight : F.Residue)
      randomProduct := total ps fun p => (p.holding.randomProduct : F.Residue)
      hint i := total ps fun p => ((p.holding.hints.getD i 0 : Nat) : F.Residue)
      a := total ps fun p => (p.holding.triple.a : F.Residue)
      b := total ps fun p => (p.holding.triple.b : F.Residue)
      c := total ps fun p => (p.holding.triple.c : F.Residue) } := by
  simp only [Reconstruction.ofCheckers, List.map_map]
  rfl

end Party

namespace ClientRequest

variable {F : Field} {c : Circuit} {leader server : Nat} {request : ClientRequest}
  {requests : List ClientRequest}

/-- What a server holds of its request, by the shares that it replays. -/
theorem holding_party : (request.party F c leader server).holding =
    let share := (Replay.fresh server leader request.hints).share F
    { wires := c.wiresOfShares F (server == leader) ((List.range c.numShared).map share)
      randomLeft := share c.numShared
      randomRight := share (c.numShared + 1)
      randomProduct := share (c.numShared + 2)
      hints := (List.range (c.domainSize - 1)).map fun i => share (c.numShared + 3 + i)
      triple := request.triple } :=
  Holding.ofShares_range ..

theorem wires_party {i : Nat} (h : i < c.sharedGates.length) :
    (request.party F c leader server).holding.wires.at c.sharedGates[i] =
      (Replay.fresh server leader request.hints).share F i := by
  have length : ((List.range c.numShared).map
      ((Replay.fresh server leader request.hints).share F)).length = c.numShared := by simp
  have entry := congrArg (·[i]?)
    (Circuit.shared_wiresOfShares (F := F) (k := server == leader) length)
  rw [c.length_sharedGates] at h
  rw [holding_party]
  simpa [c.length_sharedGates, h] using entry

theorem hints_party {i : Nat} (h : i < c.domainSize - 1) :
    (request.party F c leader server).holding.hints.getD i 0 =
      (Replay.fresh server leader request.hints).share F (c.numShared + 3 + i) := by
  rw [holding_party]
  simp [h]

/-- What all servers hold in one place sums to what they replay there. -/
theorem total_eq_replayed (part : Holding → Nat) {i : Nat}
    (h : ∀ (request : ClientRequest) server, part (request.party F c leader server).holding =
      (Replay.fresh server leader request.hints).share F i) :
    (Party.total (parties F c leader requests) fun p => (part p.holding : F.Residue)) =
      replayed F leader requests i := by
  rw [Party.total, parties, List.map_map, replayed]
  congr 1
  apply List.map_congr_left
  rintro ⟨request, server⟩ _
  exact congrArg Nat.cast (h request server)

theorem total_triple (part : TripleShare → Nat) :
    (Party.total (parties F c leader requests) fun p => (part p.holding.triple : F.Residue)) =
      (requests.map fun q => (part q.triple : F.Residue)).sum := by
  have servers := List.zipIdx_map_fst 0 requests
  rw [Party.total, parties, List.map_map]
  conv_rhs => rw [← servers, List.map_map]
  rfl

end ClientRequest

namespace Checker

variable {F : Field} {c : Circuit} {leader : Nat} {requests : List ClientRequest}
  {checkers : List Checker}

/-- What checkers hold after they take requests in is what the requests say. -/
theorem replays_ofCheckers (wf : c.WellFormed) (hl : leader < requests.length)
    (admitted : admitAll F c leader requests = .ok checkers) :
    (Reconstruction.ofCheckers F checkers).Replays c leader requests := by
  obtain ⟨-, rfl⟩ := ClientRequest.admitAll_eq_ok_iff.1 admitted
  rw [Party.ofCheckers_checkers]
  constructor
  case shared =>
    intro i h
    exact ClientRequest.total_eq_replayed (·.wires.at c.sharedGates[i])
      fun _ _ => ClientRequest.wires_party h
  case derived => exact ClientRequest.linear_parties wf hl
  case randomLeft =>
    apply ClientRequest.total_eq_replayed Holding.randomLeft
    simp [ClientRequest.holding_party]
  case randomRight =>
    apply ClientRequest.total_eq_replayed Holding.randomRight
    simp [ClientRequest.holding_party]
  case randomProduct =>
    apply ClientRequest.total_eq_replayed Holding.randomProduct
    simp [ClientRequest.holding_party]
  case hint =>
    intro i h
    exact ClientRequest.total_eq_replayed (·.hints.getD i 0)
      fun _ _ => ClientRequest.hints_party h
  case a => exact ClientRequest.total_triple (·.a)
  case b => exact ClientRequest.total_triple (·.b)
  case c => exact ClientRequest.total_triple (·.c)

end Checker

end PrivateSums
