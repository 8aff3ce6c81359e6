import PrivateSums.Proofs.Interpolation.Building
import PrivateSums.Proofs.Polynomial.LeadingZeros

/-!
Interpolation and evaluation at a point set undo each other. The answer of interpolation is the only
polynomial of its degree that takes the values; it is written without leading zeros and never
without coefficients.
-/

open scoped Polynomial

namespace PrivateSums.PointSet

variable {F : Field} {points values : List Nat}

/-- A polynomial of degree below the number of points that takes these values at them. -/
structure Interpolates (F : Field) (points values : List Nat) (P : Polynomial) : Prop where
  canonical : ∀ c ∈ P.coefficients, c < F.modulus
  low : P.degree < points.length
  table : points.map (P.evaluate F) = values.map F.reduce

theorem table_iff {P : Polynomial} (length : values.length = points.length) :
    points.map (P.evaluate F) = values.map F.reduce ↔ ∀ i < points.length,
      (F.polynomial P.coefficients).eval (F.node points i) = (values.getD i 0 : Nat) := by
  have entry {i : Nat} (hp : i < points.length) (hv : i < values.length) :
      P.evaluate F points[i] = F.reduce values[i] ↔
        (F.polynomial P.coefficients).eval (F.node points i) = (values.getD i 0 : Nat) := by
    rw [← F.cast_inj (Polynomial.evaluate_lt F P _) (F.reduce_lt _), Polynomial.cast_evaluate,
      F.cast_reduce, Field.node, List.getD_eq_getElem _ _ hp, List.getD_eq_getElem _ _ hv]
  constructor
  · intro table i hi
    have hv : i < values.length := hi.trans_eq length.symm
    rw [← entry hi hv, ← List.getElem_map (P.evaluate F), ← List.getElem_map F.reduce]
    · simp only [table]
    · rwa [List.length_map]
    · rwa [List.length_map]
  · intro each
    refine List.ext_getElem (by simp [length]) fun i hp hv => ?_
    rw [List.length_map] at hp hv
    rw [List.getElem_map, List.getElem_map, entry hp hv]
    exact each i hp

/-- The list without coefficients has the values of a written zero. -/
theorem Interpolates.zero (h : Interpolates F points values ⟨[]⟩) :
    Interpolates F points values (.zero 1) where
  canonical := by simp [Polynomial.zero, F.modulus_pos]
  low := h.low
  table := by
    rw [← h.table]
    refine congrArg (points.map ·) (Polynomial.evaluate_congr ?_)
    simp [Polynomial.zero, F.polynomial_cons]

variable {S : PointSet}

theorem interpolates_evaluate (made : S.MadeOf F points) {P : Polynomial}
    (canonical : ∀ c ∈ P.coefficients, c < F.modulus)
    (short : P.coefficients.length ≤ points.length) :
    Interpolates F points (points.map (P.evaluate F)) P := by
  refine ⟨canonical, (Polynomial.degree_lt_iff canonical
    (List.length_pos_iff.2 made.nonempty)).2 ?_, ?_⟩
  · exact (F.degree_polynomial_lt _).trans_le (by exact_mod_cast short)
  · rw [List.map_map]
    exact List.map_congr_left fun x _ => (F.reduce_of_lt (P.evaluate_lt F x)).symm

theorem interpolate_eq_error (made : S.MadeOf F points) (other : values.length ≠ points.length) :
    S.interpolate F values = .error (.lengthMismatch points.length values.length) := by
  rw [interpolate, size, made.length_points, if_neg other]
  rfl

variable [Fact F.modulus.Prime]

/-- Over the residues there is one interpolant. -/
theorem interpolates_iff (made : S.MadeOf F points) (hS : S.Valid F)
    (length : values.length = points.length) {P : Polynomial} : Interpolates F points values P ↔
      (∀ c ∈ P.coefficients, c < F.modulus) ∧
        F.polynomial P.coefficients = S.interpolant F values := by
  have count := made.length_points
  have node : F.node S.points = F.node points := by rw [made.points_eq, node_map_reduce]
  have pos : 0 < points.length := List.length_pos_iff.2 made.nonempty
  constructor
  · rintro ⟨canonical, low, table⟩
    refine ⟨canonical, eq_interpolant hS ?_ fun i hi => ?_⟩
    · rw [count]
      exact (Polynomial.degree_lt_iff canonical pos).1 low
    · rw [node]
      exact (table_iff length).1 table i (count ▸ hi)
  · rintro ⟨canonical, eq⟩
    refine ⟨canonical, (Polynomial.degree_lt_iff canonical pos).2 ?_,
      (table_iff length).2 fun i hi => ?_⟩
    · rw [eq, ← count]
      exact degree_interpolant_lt hS values
    · rw [eq, ← node]
      exact eval_interpolant hS values (count.symm ▸ hi)

/-- Interpolation answers the interpolant without leading zeros, but with a coefficient. -/
theorem exists_interpolates (made : S.MadeOf F points) (hS : S.Valid F)
    (length : values.length = points.length) : ∃ P, S.interpolate F values = .ok P ∧
      P.trim = P ∧ P.coefficients ≠ [] ∧ Interpolates F points values P := by
  have count := made.length_points
  obtain ⟨P, ok, full, canonical, eq⟩ := interpolate_eq_ok made hS (length.trans count.symm)
  have some : P.coefficients ≠ [] := by
    rw [← List.length_pos_iff, full, count]
    exact List.length_pos_iff.2 made.nonempty
  refine ⟨P.trim, ok, P.trim_trim, Polynomial.trimmed_ne_nil some,
    (interpolates_iff made hS length).2 ⟨?_, by rw [Polynomial.polynomial_trim, eq]⟩⟩
  exact fun c hc => canonical c (Polynomial.mem_trimmed _ c hc)

/-- The interpolant that has a coefficient has one trimmed form. -/
theorem Interpolates.trim_eq (made : S.MadeOf F points) (hS : S.Valid F)
    (length : values.length = points.length) {P Q : Polynomial}
    (hP : Interpolates F points values P) (hQ : Interpolates F points values Q)
    (trimmed : P.trim = P) (someP : P.coefficients ≠ []) (someQ : Q.coefficients ≠ []) :
    Q.trim = P := by
  obtain ⟨canonicalP, eqP⟩ := (interpolates_iff made hS length).1 hP
  obtain ⟨canonicalQ, eqQ⟩ := (interpolates_iff made hS length).1 hQ
  refine Polynomial.eq_of_trim (fun c hc => canonicalQ c (Polynomial.mem_trimmed _ c hc))
    canonicalP Q.trim_trim trimmed (Polynomial.trimmed_ne_nil someQ) someP ?_
  rw [Polynomial.polynomial_trim, eqQ, eqP]

/-- From its values interpolation recovers every polynomial of as many coefficients as points,
without its leading zeros. The list without coefficients comes back as a written zero. -/
theorem interpolate_evaluate (made : S.MadeOf F points) (hS : S.Valid F) {P : Polynomial}
    (canonical : ∀ c ∈ P.coefficients, c < F.modulus)
    (short : P.coefficients.length ≤ points.length) :
    S.interpolate F (points.map (P.evaluate F)) =
      .ok (if P.coefficients = [] then .zero 1 else P.trim) := by
  have length : (points.map (P.evaluate F)).length = points.length := List.length_map _
  have takes := interpolates_evaluate made canonical short
  obtain ⟨R, ok, trimmed, some, interpolates⟩ := exists_interpolates made hS length
  have only {Q : Polynomial} (hQ : Interpolates F points (points.map (P.evaluate F)) Q)
      (someQ : Q.coefficients ≠ []) : R = Q.trim :=
    (interpolates.trim_eq made hS length hQ trimmed some someQ).symm
  rw [ok]
  split
  · rename_i empty
    obtain rfl : P = ⟨[]⟩ := congrArg Polynomial.mk empty
    rw [only takes.zero (List.cons_ne_nil _ _)]
    rfl
  · rename_i someP
    rw [only takes someP]

/-- Interpolation and evaluation undo each other. Interpolation answers the trimmed interpolant,
whose values are those given, and no other trimmed list is one: of a polynomial that is zero, only
the list without coefficients besides. -/
theorem undoes_evaluate (ok : ofPoints F points = .ok S) :
    (∀ values, values.length = points.length → ∃ P, S.interpolate F values = .ok P ∧
      P.trim = P ∧ P.coefficients ≠ [] ∧ Interpolates F points values P ∧
      (∀ Q, Interpolates F points values Q → Q.trim = Q →
        Q = P ∨ Q = ⟨[]⟩ ∧ P = .zero 1) ∧
      S.evaluate F P = .ok (values.map F.reduce)) ∧
    (∀ P : Polynomial, (∀ c ∈ P.coefficients, c < F.modulus) →
      P.coefficients.length ≤ points.length →
      ∃ values, S.evaluate F P = .ok values ∧
        S.interpolate F values = .ok (if P.coefficients = [] then .zero 1 else P.trim)) ∧
    ∀ values, values.length ≠ points.length →
      S.interpolate F values = .error (.lengthMismatch points.length values.length) := by
  have made := madeOf_of_ofPoints ok
  have valid := valid_of_ofPoints ok
  have evaluate := (made.holds valid).evaluate
  refine ⟨fun values length => ?_, fun P canonical short =>
    ⟨_, evaluate P, interpolate_evaluate made valid canonical short⟩,
    fun values other => interpolate_eq_error made other⟩
  obtain ⟨P, answer, trimmed, some, interpolates⟩ := exists_interpolates made valid length
  have only {Q : Polynomial} (hQ : Interpolates F points values Q)
      (someQ : Q.coefficients ≠ []) : Q.trim = P :=
    interpolates.trim_eq made valid length hQ trimmed some someQ
  refine ⟨P, answer, trimmed, some, interpolates, fun Q hQ trimmedQ => ?_, by
    rw [evaluate, interpolates.table]⟩
  obtain empty | someQ := eq_or_ne Q.coefficients []
  · obtain rfl : Q = ⟨[]⟩ := congrArg Polynomial.mk empty
    exact .inr ⟨rfl, (only hQ.zero (List.cons_ne_nil _ _)).symm⟩
  · exact .inl (trimmedQ.symm.trans (only hQ someQ))

theorem undoes_evaluate_seventeen : ∃ S, ofPoints .seventeen [3, 5, 21] = .ok S ∧
    S.evaluate .seventeen ⟨[2, 1, 0]⟩ = .ok [5, 7, 6] ∧
    S.interpolate .seventeen [5, 7, 6] = .ok ⟨[2, 1]⟩ ∧
    S.interpolate .seventeen [5, 24] = .error (.lengthMismatch 3 2) ∧
    ∃ P, S.interpolate .seventeen [5, 24, 6] = .ok P ∧
      S.evaluate .seventeen P = .ok [5, 7, 6] := by
  obtain ⟨S, ok⟩ : ∃ S, ofPoints .seventeen [3, 5, 21] = .ok S :=
    exists_ofPoints_iff.2 (by decide)
  obtain ⟨there, back, refused⟩ := undoes_evaluate ok
  obtain ⟨values, evaluated, interpolated⟩ := back ⟨[2, 1, 0]⟩ (by decide) (by decide)
  obtain rfl : [5, 7, 6] = values :=
    Except.ok.inj (((madeOf_of_ofPoints ok).holds (valid_of_ofPoints ok)).evaluate _ |>.symm.trans
      evaluated)
  obtain ⟨P, answer, -, -, -, -, table⟩ := there [5, 24, 6] rfl
  exact ⟨S, ok, evaluated, interpolated, refused [5, 24] (by decide), P, answer, table⟩

/-- Without coefficients zero does not come back as it was. -/
theorem not_interpolate_evaluate : ∃ S, ofPoints .seventeen [3, 5] = .ok S ∧
    S.evaluate .seventeen ⟨[]⟩ = .ok [0, 0] ∧
    S.interpolate .seventeen [0, 0] ≠ .ok (Polynomial.trim ⟨[]⟩) := by
  obtain ⟨S, ok⟩ : ∃ S, ofPoints .seventeen [3, 5] = .ok S := exists_ofPoints_iff.2 (by decide)
  have made := madeOf_of_ofPoints ok
  have valid := valid_of_ofPoints ok
  refine ⟨S, ok, (made.holds valid).evaluate _, fun same => ?_⟩
  have written := interpolate_evaluate made valid (P := ⟨[]⟩) (by simp) (by simp)
  cases written.symm.trans same

end PrivateSums.PointSet
