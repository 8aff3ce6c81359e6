import PrivateSums.Proofs.Interpolation.Combination

/-!
Building a point set. A list of points has one unless it is empty or two of them are congruent, and
then its error names the first point that repeats an earlier one. The set holds the product of the
linear factors and the weights of the points, and lists the values of every polynomial.
-/

open scoped Polynomial

namespace PrivateSums

namespace Polynomial

variable {F : Field}

theorem evaluate_reduce (P : Polynomial) (x : Nat) :
    P.evaluate F (F.reduce x) = P.evaluate F x := by
  rw [← F.cast_inj (evaluate_lt F P _) (evaluate_lt F P x), cast_evaluate, cast_evaluate,
    F.cast_reduce]

theorem map_evaluate_reduce (P : Polynomial) (points : List Nat) :
    (points.map F.reduce).map (P.evaluate F) = points.map (P.evaluate F) := by
  rw [List.map_map]
  exact List.map_congr_left fun x _ => P.evaluate_reduce x

end Polynomial

namespace ProductTree

variable {F : Field}

theorem product_lt (points : List Nat) :
    ∀ c ∈ (ofPoints F points).product.coefficients, c < F.modulus := by
  have one := F.one_lt_modulus
  induction points using ofPoints_induction (F := F) with
  | empty => simpa [product, Polynomial.constant] using one
  | leaf point => simp [product, Polynomial.linear, F.neg_lt, one]
  | node left right => exact Polynomial.mul_lt _ _

/-- The product over points is monic: as many coefficients as factors and one more, the last of
them one. -/
theorem getLast_product [Fact F.modulus.Prime] (points : List Nat) :
    (ofPoints F points).product.coefficients.getLast? = some 1 := by
  have length := length_product (F := F) points
  have top : (F.vanishing points).coeff points.length = 1 := by
    have monic := Lagrange.nodal_monic (s := Finset.range points.length) (v := F.node points)
    rwa [Polynomial.Monic, Polynomial.leadingCoeff, Lagrange.natDegree_nodal, Finset.card_range,
      ← F.vanishing_eq_nodal] at monic
  have last : points.length < (ofPoints F points).product.coefficients.length := by omega
  rw [← polynomial_product, F.coeff_polynomial, List.getD_eq_getElem _ _ last, ← Nat.cast_one,
    F.cast_inj (product_lt points _ (List.getElem_mem last)) F.one_lt_modulus] at top
  rw [List.getLast?_eq_getElem?, length, Nat.add_sub_cancel, List.getElem?_eq_getElem last, top]

end ProductTree

namespace PointSet

/-- The point with this number is congruent to one before it. -/
def RepeatsAt (F : Field) (points : List Nat) (i : Nat) : Prop :=
  ∃ h : i < points.length, ∃ p ∈ points.take i, p ≡ points[i] [MOD F.modulus]

instance (F : Field) (points : List Nat) (i : Nat) : Decidable (RepeatsAt F points i) :=
  inferInstanceAs
    (Decidable (∃ h : i < points.length, ∃ p ∈ points.take i, p ≡ points[i] [MOD F.modulus]))

section Repeats

variable {seen points : List Nat} {i : Nat}

/-- The search stops at the first point that it has seen. -/
theorem of_go_eq_some (distinct : seen.Nodup) (h : firstRepeat?.go seen points = some i) :
    ∃ fresh p rest, points = fresh ++ p :: rest ∧ i = seen.length + fresh.length ∧
      p ∈ fresh.reverse ++ seen ∧ (fresh.reverse ++ seen).Nodup := by
  induction points generalizing seen with
  | nil => cases h
  | cons p points ih =>
    rw [firstRepeat?.go] at h
    split at h
    · rename_i known
      obtain rfl := Option.some.inj h
      exact ⟨[], p, points, rfl, rfl, by simpa using known, by simpa using distinct⟩
    · rename_i new
      obtain ⟨fresh, q, rest, rfl, rfl, known, distinct⟩ :=
        ih (List.nodup_cons.2 ⟨by simpa using new, distinct⟩) h
      refine ⟨p :: fresh, q, rest, rfl, ?_, ?_, ?_⟩
      · simp only [List.length_cons]
        omega
      · simpa using known
      · simpa using distinct

theorem of_go_eq_none (distinct : seen.Nodup) (h : firstRepeat?.go seen points = none) :
    (points.reverse ++ seen).Nodup := by
  induction points generalizing seen with
  | nil => exact distinct
  | cons p points ih =>
    rw [firstRepeat?.go] at h
    split at h
    · cases h
    · rename_i new
      have all := ih (List.nodup_cons.2 ⟨by simpa using new, distinct⟩) h
      simpa using all

end Repeats

variable {F : Field} {points : List Nat} {i : Nat}

theorem repeatsAt_iff : RepeatsAt F points i ↔
    ∃ p, (points.map F.reduce)[i]? = some p ∧ p ∈ (points.map F.reduce).take i := by
  rw [← List.map_take]
  simp only [List.getElem?_map, Option.map_eq_some_iff, List.mem_map]
  constructor
  · rintro ⟨hi, p, mem, same⟩
    exact ⟨_, ⟨_, List.getElem?_eq_getElem hi, rfl⟩, p, mem, same⟩
  · rintro ⟨_, ⟨q, found, rfl⟩, p, mem, same⟩
    obtain ⟨hi, rfl⟩ := List.getElem?_eq_some_iff.1 found
    exact ⟨hi, p, mem, same⟩

/-- What is reported is the first point that repeats an earlier one. -/
theorem isLeast_firstRepeat (h : firstRepeat? (points.map F.reduce) = some i) :
    IsLeast {i | RepeatsAt F points i} i := by
  obtain ⟨fresh, p, rest, split, at_, known, distinct⟩ := of_go_eq_some List.nodup_nil h
  simp only [List.append_nil, List.mem_reverse, List.nodup_reverse, List.length_nil,
    Nat.zero_add] at at_ known distinct
  subst at_
  constructor
  · rw [Set.mem_ofPred_eq, repeatsAt_iff, split]
    exact ⟨p, by simp, by simpa using known⟩
  · intro j hj
    rw [Set.mem_ofPred_eq, repeatsAt_iff, split] at hj
    obtain ⟨q, found, earlier⟩ := hj
    by_contra before
    -- Both places would lie in the part without repetitions.
    have lt : j < fresh.length := by omega
    rw [List.getElem?_append_left lt] at found
    rw [List.take_append_of_le_length lt.le] at earlier
    obtain ⟨k, hk, eq⟩ := List.mem_take_iff_getElem.1 earlier
    obtain ⟨_, eq'⟩ := List.getElem?_eq_some_iff.1 found
    have := (List.Nodup.getElem_inj_iff distinct).1 (eq.trans eq'.symm)
    omega

theorem nodup_map_reduce_iff : (points.map F.reduce).Nodup ↔
    points.Pairwise fun p q => ¬ p ≡ q [MOD F.modulus] := List.pairwise_map

theorem not_repeatsAt (distinct : (points.map F.reduce).Nodup) : ¬ RepeatsAt F points i := by
  rw [repeatsAt_iff]
  rintro ⟨p, found, earlier⟩
  obtain ⟨hi, rfl⟩ := List.getElem?_eq_some_iff.1 found
  obtain ⟨j, hj, eq⟩ := List.mem_take_iff_getElem.1 earlier
  have := (List.Nodup.getElem_inj_iff distinct).1 eq
  omega

variable [Fact F.modulus.Prime]

/-- A list of points is empty, or has a first point that repeats, or has a set. -/
theorem ofPoints_cases (F : Field) [Fact F.modulus.Prime] (points : List Nat) :
    (points = [] ∧ ofPoints F points = .error .noPoints) ∨
    (∃ i, IsLeast {i | RepeatsAt F points i} i ∧
      ofPoints F points = .error (.duplicatePoint i)) ∨
    (points ≠ [] ∧ (points.map F.reduce).Nodup ∧ ∃ S, ofPoints F points = .ok S) := by
  obtain rfl | nonempty := eq_or_ne points []
  · exact .inl ⟨rfl, rfl⟩
  refine .inr ?_
  cases found : firstRepeat? (points.map F.reduce) with
  | some i =>
    refine .inl ⟨i, isLeast_firstRepeat found, ?_⟩
    simp [ofPoints, nonempty, found]
  | none =>
    have distinct := of_go_eq_none List.nodup_nil found
    rw [List.append_nil, List.nodup_reverse] at distinct
    obtain ⟨S, ok, -, -⟩ := ofPoints_eq_ok nonempty distinct
    exact .inr ⟨nonempty, distinct, S, ok⟩

/-- What a set holds of the points that it is made of. -/
structure Holds (F : Field) (points : List Nat) (S : PointSet) : Prop where
  points_eq : S.points = points.map F.reduce
  vanishing_lt : ∀ c ∈ S.vanishing.coefficients, c < F.modulus
  length_vanishing : S.vanishing.coefficients.length = points.length + 1
  monic : S.vanishing.coefficients.getLast? = some 1
  product : F.polynomial S.vanishing.coefficients =
    (points.map fun x : Nat => Polynomial.X - Polynomial.C (x : F.Residue)).prod
  length_weights : S.weights.length = points.length
  weight : ∀ i < points.length, ((S.weights.getD i 0 : Nat) : F.Residue) *
    ∏ j ∈ (Finset.range points.length).erase i, (F.node points i - F.node points j) = 1
  evaluate : ∀ P, S.evaluate F P = .ok (points.map (P.evaluate F))

omit [Fact F.modulus.Prime] in
theorem node_map_reduce (points : List Nat) : F.node (points.map F.reduce) = F.node points := by
  funext i
  obtain lt | ge := Nat.lt_or_ge i points.length
  · rw [Field.node, List.getD_eq_getElem _ _ (by rwa [List.length_map]), List.getElem_map,
      F.cast_reduce, Field.node, List.getD_eq_getElem _ _ lt]
  · rw [Field.node, List.getD_eq_default _ _ (by rwa [List.length_map]), Field.node,
      List.getD_eq_default _ _ ge]

omit [Fact F.modulus.Prime] in
theorem vanishing_map_reduce (points : List Nat) :
    F.vanishing (points.map F.reduce) = F.vanishing points := by
  rw [Field.vanishing, List.map_map, Field.vanishing]
  congr 1
  refine List.map_congr_left fun x _ => ?_
  rw [Function.comp_apply, F.cast_reduce]

/-- The weight of a point is the inverse of the product of its differences to the others. -/
theorem Valid.weight_mul {S : PointSet} (hS : S.Valid F) {i : Nat} (hi : i < S.points.length) :
    ((S.weights.getD i 0 : Nat) : F.Residue) *
      ∏ j ∈ (Finset.range S.points.length).erase i, (F.node S.points i - F.node S.points j) =
      1 := by
  have slope : ((F.vanishing S.points).derivative).eval (F.node S.points i) =
      ∏ j ∈ (Finset.range S.points.length).erase i, (F.node S.points i - F.node S.points j) := by
    rw [F.vanishing_eq_nodal,
      Lagrange.eval_nodal_derivative_eval_node_eq (Finset.mem_range.2 hi), Lagrange.eval_nodal]
  rw [← slope, hS.cast_weight i hi, inv_mul_cancel₀ (slope_ne_zero hS.canonical hS.distinct hi)]

theorem MadeOf.holds {S : PointSet} (made : S.MadeOf F points) (hS : S.Valid F) :
    S.Holds F points where
  points_eq := made.points_eq
  vanishing_lt := by
    rw [vanishing, made.tree_eq]
    exact ProductTree.product_lt _
  length_vanishing := by
    rw [vanishing, made.tree_eq, ProductTree.length_product, made.length_points]
  monic := by
    rw [vanishing, made.tree_eq]
    exact ProductTree.getLast_product _
  product := by
    rw [vanishing, made.tree_eq, ProductTree.polynomial_product, made.points_eq,
      vanishing_map_reduce, Field.vanishing]
  length_weights := made.length_weights.trans made.length_points
  weight i hi := by
    rw [← made.length_points] at hi ⊢
    rw [← node_map_reduce, ← made.points_eq]
    exact hS.weight_mul hi
  evaluate P := by
    rw [PointSet.evaluate, made.tree_eq, ProductTree.evaluate_ofPoints, made.points_eq,
      P.map_evaluate_reduce]

/-- A set is there when there are points and no two are congruent. -/
theorem exists_ofPoints_iff : (∃ S, ofPoints F points = .ok S) ↔
    points ≠ [] ∧ points.Pairwise fun p q => ¬ p ≡ q [MOD F.modulus] := by
  rw [← nodup_map_reduce_iff]
  constructor
  · rintro ⟨S, ok⟩
    obtain ⟨-, refused⟩ | ⟨i, -, refused⟩ | ⟨nonempty, distinct, -⟩ := ofPoints_cases F points
    · cases ok.symm.trans refused
    · cases ok.symm.trans refused
    · exact ⟨nonempty, distinct⟩
  · rintro ⟨nonempty, distinct⟩
    obtain ⟨S, ok, -, -⟩ := ofPoints_eq_ok nonempty distinct
    exact ⟨S, ok⟩

/-- No inversion and no division fails. -/
theorem ofPoints_eq_error_iff {e : PolynomialError} : ofPoints F points = .error e ↔
    points = [] ∧ e = .noPoints ∨
      ∃ i, IsLeast {i | RepeatsAt F points i} i ∧ e = .duplicatePoint i := by
  constructor
  · intro failed
    obtain ⟨empty, refused⟩ | ⟨i, least, refused⟩ | ⟨-, -, S, ok⟩ := ofPoints_cases F points
    · exact .inl ⟨empty, Except.error.inj (failed.symm.trans refused)⟩
    · exact .inr ⟨i, least, Except.error.inj (failed.symm.trans refused)⟩
    · cases failed.symm.trans ok
  · rintro (⟨rfl, rfl⟩ | ⟨i, least, rfl⟩)
    · rfl
    · obtain ⟨rfl, -⟩ | ⟨j, least', refused⟩ | ⟨-, distinct, -⟩ := ofPoints_cases F points
      · exact absurd least.1 (not_repeatsAt List.nodup_nil)
      · rw [refused, least'.unique least]
      · exact absurd least.1 (not_repeatsAt distinct)

theorem valid_of_ofPoints {S : PointSet} (ok : ofPoints F points = .ok S) : S.Valid F := by
  obtain ⟨nonempty, distinct⟩ := exists_ofPoints_iff.1 ⟨S, ok⟩
  obtain ⟨S', ok', -, valid⟩ := ofPoints_eq_ok nonempty (nodup_map_reduce_iff.2 distinct)
  obtain rfl : S' = S := Except.ok.inj (ok'.symm.trans ok)
  exact valid

/-- A list of points has a set when there are points and no two are congruent. Otherwise the error
is that there are none, or the first point that repeats an earlier one. A set holds the monic
product of the linear factors, the inverses of the products of differences, and the table of values
of every polynomial. -/
theorem builds_ofPoints (points : List Nat) :
    ((∃ S, ofPoints F points = .ok S) ↔
      points ≠ [] ∧ points.Pairwise fun p q => ¬ p ≡ q [MOD F.modulus]) ∧
    (∀ e, ofPoints F points = .error e ↔ points = [] ∧ e = .noPoints ∨
      ∃ i, IsLeast {i | RepeatsAt F points i} i ∧ e = .duplicatePoint i) ∧
    ∀ S, ofPoints F points = .ok S → S.Holds F points :=
  ⟨exists_ofPoints_iff, fun _ => ofPoints_eq_error_iff,
    fun _ ok => (madeOf_of_ofPoints ok).holds (valid_of_ofPoints ok)⟩

/-- A point beyond the modulus that repeats the first, and three that are distinct. -/
theorem builds_ofPoints_seventeen :
    ofPoints .seventeen [3, 5, 20, 22] = .error (.duplicatePoint 2) ∧
      ∃ S, ofPoints .seventeen [3, 5, 21] = .ok S ∧ S.points = [3, 5, 4] ∧
        S.vanishing.coefficients.getLast? = some 1 ∧
        S.evaluate .seventeen ⟨[1, 0, 0, 0, 1, 0]⟩ = .ok [14, 14, 2] := by
  have before : ∀ i < 2, ¬ RepeatsAt .seventeen [3, 5, 20, 22] i := by decide
  have least : IsLeast {i | RepeatsAt .seventeen [3, 5, 20, 22] i} 2 :=
    ⟨by decide, fun i again => Nat.le_of_not_lt fun lt => before i lt again⟩
  obtain ⟨-, errors, -⟩ := builds_ofPoints (F := .seventeen) [3, 5, 20, 22]
  obtain ⟨built, -, holds⟩ := builds_ofPoints (F := .seventeen) [3, 5, 21]
  obtain ⟨S, ok⟩ := built.2 (by decide)
  have held := holds S ok
  exact ⟨(errors _).2 (.inr ⟨2, least, rfl⟩), S, ok, held.points_eq, held.monic, held.evaluate _⟩

end PointSet

end PrivateSums
