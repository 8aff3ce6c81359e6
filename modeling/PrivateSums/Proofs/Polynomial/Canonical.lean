import PrivateSums.Proofs.Interpolation.Combination
import PrivateSums.Proofs.Polynomial.QuotientRemainder

/-!
Canonical answers. Over every field and whatever numbers go in, polynomial operations answer
coefficients and values below the modulus, but where they have nothing to compute: the transform of
one entry is that entry, and a division leaves alone what it takes no multiple of the divisor from.
-/

namespace PrivateSums

variable {F : Field}

namespace Field

theorem canonical_map {op : Nat → Nat} (h : ∀ a, op a < F.modulus) (as : List Nat) :
    F.Canonical (as.map op) := by
  intro v hv
  obtain ⟨a, -, rfl⟩ := List.mem_map.1 hv
  exact h a

theorem canonical_zero (n : Nat) : F.Canonical (Polynomial.zero n).coefficients := by
  intro v hv
  rw [List.eq_of_mem_replicate hv]
  exact F.modulus_pos

end Field

namespace Polynomial

theorem canonical_derivative (P : Polynomial) : F.Canonical (P.derivative F).coefficients := by
  unfold derivative
  split
  · exact Field.canonical_zero 1
  · intro v hv
    obtain ⟨i, -, rfl⟩ := List.mem_mapIdx.1 (List.mem_of_mem_tail hv)
    exact F.mul_lt _ i

end Polynomial

namespace Transform

variable {values roots out : List Nat} {n : Nat}

/-- A level that splits its entries reduces all of them. -/
theorem canonical_levels (k : Nat) (values roots : List Nat) :
    F.Canonical (levels F (k + 1) values roots) := by
  intro v hv
  obtain mem | mem := mem_interleave hv
  · exact levels_lt F (mem_zipWith_lt F F.add_lt _ _) v mem
  · exact levels_lt F (mem_zipWith_lt F F.mul_lt _ _) v mem

theorem forward_cases (h : forward F values roots = .ok out) :
    (values.length = 1 ∧ out = values) ∨ (values.length ≠ 1 ∧ F.Canonical out) := by
  obtain ⟨⟨⟩, domain, h⟩ := Answer.bind_eq_ok.1 h
  obtain rfl := Except.ok.inj h
  have two : isTwoPower values.length := by
    by_contra other
    simp [checkDomain, other] at domain
  obtain ⟨k, length⟩ := isTwoPower_iff.1 two
  rw [run, length, Nat.log2_two_pow]
  cases k with
  | zero => exact .inl ⟨rfl, rfl⟩
  | succ k =>
    refine .inr ⟨?_, canonical_levels k values roots⟩
    have := Nat.two_pow_pos k
    rw [Nat.pow_succ]
    omega

theorem canonical_of_inverse (h : inverse F values roots = .ok out) : F.Canonical out := by
  obtain ⟨-, -, h⟩ := Answer.bind_eq_ok.1 h
  obtain ⟨scale, -, h⟩ := Answer.bind_eq_ok.1 h
  obtain rfl := Except.ok.inj h
  exact Field.canonical_map (fun c => F.mul_lt c scale) _

theorem canonical_of_interpolateOnRoots (h : interpolateOnRoots F values = .ok out) :
    F.Canonical out := by
  obtain ⟨roots, -, h⟩ := Answer.bind_eq_ok.1 h
  exact canonical_of_inverse h

theorem evaluateOnRoots_cases (h : evaluateOnRoots F values n = .ok out) :
    (n = 1 ∧ out = padded 1 values) ∨ (n ≠ 1 ∧ F.Canonical out) := by
  by_cases fits : values.length ≤ n
  · rw [evaluateOnRoots, if_pos fits] at h
    obtain ⟨roots, -, h⟩ := Answer.bind_eq_ok.1 h
    obtain ⟨one, rfl⟩ | ⟨several, canonical⟩ := forward_cases h
    · rw [length_padded fits] at one
      rw [one]
      exact .inl ⟨rfl, rfl⟩
    · rw [length_padded fits] at several
      exact .inr ⟨several, canonical⟩
  · simp [evaluateOnRoots, fits] at h

end Transform

theorem ProductTree.canonical_of_evaluate {T : ProductTree} {P : Polynomial} {values : List Nat}
    (h : T.evaluate F P = .ok values) : F.Canonical values := by
  induction T generalizing P values with
  | empty =>
    obtain rfl := Except.ok.inj h
    exact fun _ hv => nomatch hv
  | leaf point factor =>
    obtain rfl := Except.ok.inj h
    exact List.forall_mem_singleton.2 (P.evaluate_lt F point)
  | node product left right ihl ihr =>
    obtain ⟨⟨_, remainder⟩, -, h⟩ := Answer.bind_eq_ok.1 h
    obtain ⟨lows, low, h⟩ := Answer.bind_eq_ok.1 h
    obtain ⟨highs, high, h⟩ := Answer.bind_eq_ok.1 h
    obtain rfl := Except.ok.inj h
    exact List.forall_mem_append.2 ⟨ihl low, ihr high⟩

theorem PointSet.canonical_of_interpolate {S : PointSet} {values : List Nat} {P : Polynomial}
    (h : S.interpolate F values = .ok P) : F.Canonical P.coefficients := by
  by_cases length : values.length = S.size
  · rw [interpolate, if_pos length] at h
    obtain rfl := Except.ok.inj h
    exact fun c hc => ProductTree.combine_lt _ (Transform.mem_zipWith_lt F F.mul_lt _ _) c
      (Polynomial.mem_trimmed _ c hc)
  · simp [interpolate, length] at h

/-- What polynomial operations answer to arbitrary numbers. -/
structure Field.AnswersCanonical (F : Field) : Prop where
  add : ∀ P Q : Polynomial, F.Canonical (P.add F Q).coefficients
  sub : ∀ P Q : Polynomial, F.Canonical (P.sub F Q).coefficients
  mul : ∀ P Q : Polynomial, F.Canonical (P.mul F Q).coefficients
  neg : ∀ P : Polynomial, F.Canonical (P.neg F).coefficients
  scale : ∀ (P : Polynomial) c, F.Canonical (P.scale F c).coefficients
  derivative : ∀ P : Polynomial, F.Canonical (P.derivative F).coefficients
  value : ∀ (P : Polynomial) x, P.evaluate F x < F.modulus
  quotient : ∀ P divisor Q R : Polynomial, P.divRem F divisor = .ok (Q, R) →
    F.Canonical Q.coefficients
  remainder : ∀ P divisor Q R : Polynomial, P.divRem F divisor = .ok (Q, R) →
    F.CanonicalBut P.coefficients R.coefficients
  forward : ∀ values roots out, Transform.forward F values roots = .ok out →
    values.length = 1 ∧ out = values ∨ values.length ≠ 1 ∧ F.Canonical out
  inverse : ∀ values rootsInv out, Transform.inverse F values rootsInv = .ok out → F.Canonical out
  evaluateOnRoots : ∀ coefficients n out, Transform.evaluateOnRoots F coefficients n = .ok out →
    n = 1 ∧ out = Transform.padded 1 coefficients ∨ n ≠ 1 ∧ F.Canonical out
  interpolateOnRoots : ∀ values out, Transform.interpolateOnRoots F values = .ok out →
    F.Canonical out
  table : ∀ (S : PointSet) P values, S.evaluate F P = .ok values → F.Canonical values
  interpolant : ∀ (S : PointSet) values P, S.interpolate F values = .ok P →
    F.Canonical P.coefficients

/-- Every operation answers canonical entries, but for the two that pass on an entry that they do
not compute with: a remainder has it from the dividend, in its place, and a transform of one entry
is that entry. So canonical entries are answered with canonical ones throughout. -/
theorem Field.answersCanonical (F : Field) : F.AnswersCanonical where
  add := Polynomial.add_lt
  sub P Q := Polynomial.add_lt P (Q.neg F)
  mul := Polynomial.mul_lt
  neg P := canonical_map F.neg_lt P.coefficients
  scale P c := canonical_map (fun a => F.mul_lt a c) P.coefficients
  derivative := Polynomial.canonical_derivative
  value := Polynomial.evaluate_lt F
  quotient _ _ _ _ h := (Polynomial.canonical_of_divRem h).1
  remainder _ _ _ _ h := (Polynomial.canonical_of_divRem h).2
  forward _ _ _ := Transform.forward_cases
  inverse _ _ _ := Transform.canonical_of_inverse
  evaluateOnRoots _ _ _ := Transform.evaluateOnRoots_cases
  interpolateOnRoots _ _ := Transform.canonical_of_interpolateOnRoots
  table _ _ _ := ProductTree.canonical_of_evaluate
  interpolant _ _ _ := PointSet.canonical_of_interpolate

/-- A dividend shorter than the divisor, one whose lowest coefficient no multiple is taken from,
and a transform of one entry, with what is not canonical in each. -/
theorem Field.answersCanonical_seventeen :
    Polynomial.divRem .seventeen ⟨[20]⟩ ⟨[0, 1]⟩ = .ok (⟨[0]⟩, ⟨[20]⟩) ∧
      Polynomial.divRem .seventeen ⟨[20, 0, 18]⟩ ⟨[0, 1]⟩ = .ok (⟨[0, 1]⟩, ⟨[20]⟩) ∧
      Field.seventeen.Canonical [0, 1] ∧ Field.seventeen.CanonicalBut [20, 0, 18] [20] ∧
      Transform.forward .seventeen [20] [1] = .ok [20] ∧
      Transform.forward .seventeen [20, 0] [1, 16] = .ok [3, 3] := by
  have short : Polynomial.divRem .seventeen ⟨[20]⟩ ⟨[0, 1]⟩ = .ok (⟨[0]⟩, ⟨[20]⟩) := by
    decide +kernel
  have long : Polynomial.divRem .seventeen ⟨[20, 0, 18]⟩ ⟨[0, 1]⟩ = .ok (⟨[0, 1]⟩, ⟨[20]⟩) := by
    decide +kernel
  have answers := Field.answersCanonical .seventeen
  exact ⟨short, long, answers.quotient _ _ _ _ long, answers.remainder _ _ _ _ long,
    by decide +kernel, by decide +kernel⟩

end PrivateSums
