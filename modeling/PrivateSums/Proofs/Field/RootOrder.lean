import PrivateSums.Proofs.Field.RootsOfUnity

/-!
The orders of the roots of unity. Of every order that a field supports, it lists each element whose
power is one, beginning with one and with minus one half-way. The list of the inverses has those in
the same places, and every other root of twice the order is one of the order.
-/

namespace PrivateSums.Field

variable {F : Field} {k i a : Nat} {values : List Nat}

/-- In a list of powers, the entry with a number is the canonical number of that power. -/
theorem Lists.getElem?_eq {w : F.Residue} (h : F.Lists w k values) (hi : i < 2 ^ k)
    (canonical : a < F.modulus) (power : (a : F.Residue) = w ^ i) : values[i]? = some a := by
  have inside : i < values.length := hi.trans_eq h.length_eq.symm
  have same : values[i] = a := by
    rw [← F.cast_inj (h.lt _ (List.getElem_mem inside)) canonical, h.getElem F inside, power]
  rw [List.getElem?_eq_getElem inside, same]

theorem Lists.nodup {w : F.Residue} (h : F.Lists w k values)
    (primitive : IsPrimitiveRoot w (2 ^ k : Nat)) : values.Nodup := by
  rw [List.nodup_iff_injective_get]
  intro i j same
  have powers : w ^ i.1 = w ^ j.1 := by
    rw [← h.getElem F i.2, ← h.getElem F j.2]
    exact congrArg _ same
  have hi : i.1 < 2 ^ k := i.2.trans_eq h.length_eq
  have hj : j.1 < 2 ^ k := j.2.trans_eq h.length_eq
  exact Fin.ext (primitive.pow_inj hi hj powers)

/-- What a field lists of an order: all the elements whose power is one, and their inverses. -/
structure ListsRoots (F : Field) (n : Nat) (roots inverses : List Nat) : Prop where
  length_eq : roots.length = n
  nodup : roots.Nodup
  mem_iff : ∀ a, a ∈ roots ↔ a < F.modulus ∧ F.pow a n = 1
  first : roots[0]? = some 1
  half : 2 ≤ n → roots[n / 2]? = some (F.modulus - 1)
  paired : List.Forall₂ (fun a b => F.mul a b = 1) roots inverses

section Prime

variable [Fact F.modulus.Prime]

/-- A primitive root has all the elements whose power is one among its powers. -/
theorem Lists.mem_iff {w : F.Residue} (h : F.Lists w k values)
    (primitive : IsPrimitiveRoot w (2 ^ k : Nat)) :
    a ∈ values ↔ a < F.modulus ∧ F.pow a (2 ^ k) = 1 := by
  have : NeZero (2 ^ k : Nat) := ⟨(Nat.two_pow_pos k).ne'⟩
  rw [F.pow_eq_one_iff]
  constructor
  · intro mem
    obtain ⟨i, inside, rfl⟩ := List.mem_iff_getElem.1 mem
    refine ⟨h.lt _ mem, ?_⟩
    rw [h.getElem F inside, ← pow_mul, mul_comm, pow_mul, primitive.pow_eq_one, one_pow]
  · rintro ⟨canonical, root⟩
    obtain ⟨i, hi, power⟩ := primitive.eq_pow_of_pow_eq_one root
    exact List.mem_of_getElem? (h.getElem?_eq hi canonical power.symm)

theorem Lists.paired {w : F.Residue} {inverses : List Nat} (h : F.Lists w k values)
    (h' : F.Lists w⁻¹ k inverses) (nonzero : w ≠ 0) :
    List.Forall₂ (fun a b => F.mul a b = 1) values inverses := by
  rw [List.forall₂_iff_get]
  refine ⟨h.length_eq.trans h'.length_eq.symm, fun i hi hi' => ?_⟩
  rw [← F.cast_inj (F.mul_lt _ _) F.one_lt_modulus, F.cast_mul, List.get_eq_getElem,
    List.get_eq_getElem, h.getElem F hi, h'.getElem F hi', inv_pow,
    mul_inv_cancel₀ (pow_ne_zero i nonzero), Nat.cast_one]

theorem listsRoots_two_pow (h : k ≤ F.twoOrder) : ∃ roots inverses, F.roots (2 ^ k) = .ok roots ∧
    F.rootsInv (2 ^ k) = .ok inverses ∧ F.ListsRoots (2 ^ k) roots inverses := by
  have primitive := F.isPrimitiveRoot_root h
  have nonzero := primitive.ne_zero (Nat.two_pow_pos k).ne'
  obtain ⟨roots, ok, lists⟩ := F.roots_two_pow h
  obtain ⟨inverses, ok', lists'⟩ := F.rootsInv_two_pow h
  refine ⟨roots, inverses, ok, ok', {
    length_eq := lists.length_eq
    nodup := lists.nodup primitive
    mem_iff _ := lists.mem_iff primitive
    first := lists.getElem?_eq (Nat.two_pow_pos k) F.one_lt_modulus (by simp)
    half several := ?_
    paired := lists.paired lists' nonzero }⟩
  cases k with
  | zero => exact absurd several (by decide)
  | succ i =>
    have middle : 2 ^ (i + 1) / 2 = 2 ^ i := by omega
    rw [middle]
    refine lists.getElem?_eq (Nat.pow_lt_pow_right (by decide) (Nat.lt_succ_self i))
      (Nat.sub_lt F.modulus_pos Nat.one_pos) ?_
    rw [F.cast_modulus_sub_one, F.root_pow_half h i rfl]

end Prime

theorem exists_rootOfUnity_iff {n : Nat} :
    (∃ w, F.rootOfUnity n = .ok w) ↔ ∃ k ≤ F.twoOrder, n = 2 ^ k := by
  constructor
  · rintro ⟨w, ok⟩
    obtain ⟨k, le, eq, -⟩ := F.rootOfUnity_eq_ok_iff.1 ok
    exact ⟨k, le, eq⟩
  · rintro ⟨k, le, eq⟩
    exact ⟨_, F.rootOfUnity_eq_ok_iff.2 ⟨k, le, eq, rfl⟩⟩

theorem orderOf_rootOfUnity [Fact F.modulus.Prime] {n w : Nat} (h : F.rootOfUnity n = .ok w) :
    orderOf (w : F.Residue) = n := by
  obtain ⟨k, le, rfl, -⟩ := F.rootOfUnity_eq_ok_iff.1 h
  rw [F.cast_rootOfUnity h, ← (F.isPrimitiveRoot_root le).eq_orderOf]

/-- An order and its double have their exponents one apart. -/
theorem exists_double {n v w : Nat} (coarse : F.rootOfUnity n = .ok v)
    (fine : F.rootOfUnity (2 * n) = .ok w) : ∃ k < F.twoOrder, n = 2 ^ k := by
  obtain ⟨k, -, rfl, -⟩ := F.rootOfUnity_eq_ok_iff.1 coarse
  obtain ⟨k', le, double, -⟩ := F.rootOfUnity_eq_ok_iff.1 fine
  rw [← Nat.pow_succ'] at double
  obtain rfl : k + 1 = k' := Nat.pow_right_injective le_rfl double
  exact ⟨k, le, rfl⟩

theorem sq_rootOfUnity {n v w : Nat} (coarse : F.rootOfUnity n = .ok v)
    (fine : F.rootOfUnity (2 * n) = .ok w) : F.pow w 2 = v := by
  obtain ⟨k, lt, rfl⟩ := exists_double coarse fine
  rw [← Nat.pow_succ'] at fine
  have canonical : v < F.modulus := by
    obtain ⟨_, -, -, rfl⟩ := F.rootOfUnity_eq_ok_iff.1 coarse
    exact F.pow_lt _ _
  rw [← F.cast_inj (F.pow_lt w 2) canonical, pow, F.cast_powMod, F.cast_rootOfUnity fine,
    F.root_succ_sq lt, F.cast_rootOfUnity coarse]

/-- The even places of a list of roots have the roots of half the order. -/
theorem roots_double (h : k < F.twoOrder) : ∃ roots finer, F.roots (2 ^ k) = .ok roots ∧
    F.roots (2 * 2 ^ k) = .ok finer ∧ ∀ i < 2 ^ k, finer[2 * i]? = roots[i]? := by
  obtain ⟨roots, ok, lists⟩ := F.roots_two_pow h.le
  obtain ⟨finer, ok', lists'⟩ := F.roots_two_pow (Nat.succ_le_of_lt h)
  refine ⟨roots, finer, ok, by rw [← Nat.pow_succ']; exact ok', fun i hi => ?_⟩
  have inside : i < roots.length := hi.trans_eq lists.length_eq.symm
  have even : 2 * i < 2 ^ (k + 1) := by
    rw [Nat.pow_succ]
    omega
  rw [List.getElem?_eq_getElem inside]
  refine lists'.getElem?_eq even (lists.lt _ (List.getElem_mem inside)) ?_
  rw [lists.getElem F inside, F.root_double h]

/-- Whatever parameters are accepted, if the modulus is prime the roots of unity have the orders
that they are asked for, up to that of the generator, and those of an order are found among those
of its double. -/
theorem orders_of_ofParameters {modulus generator twoOrder : Nat}
    (accepted : ofParameters modulus generator twoOrder = .ok F) (prime : modulus.Prime) :
    F.modulus = modulus ∧
    (∀ n, (∃ w, F.rootOfUnity n = .ok w) ↔ ∃ k ≤ twoOrder, n = 2 ^ k) ∧
    (∀ n w, F.rootOfUnity n = .ok w → orderOf (w : F.Residue) = n ∧
      ∃ roots inverses, F.roots n = .ok roots ∧ F.rootsInv n = .ok inverses ∧
        F.ListsRoots n roots inverses) ∧
    ∀ n v w, F.rootOfUnity n = .ok v → F.rootOfUnity (2 * n) = .ok w → F.pow w 2 = v ∧
      ∃ roots finer, F.roots n = .ok roots ∧ F.roots (2 * n) = .ok finer ∧
        ∀ i < n, finer[2 * i]? = roots[i]? := by
  obtain ⟨rfl, -, rfl⟩ := ofParameters_eq_ok_iff.1 accepted
  have : Fact F.modulus.Prime := ⟨prime⟩
  refine ⟨rfl, fun n => exists_rootOfUnity_iff, fun n w ok => ⟨orderOf_rootOfUnity ok, ?_⟩,
    fun n v w coarse fine => ⟨sq_rootOfUnity coarse fine, ?_⟩⟩
  · obtain ⟨k, le, rfl, -⟩ := F.rootOfUnity_eq_ok_iff.1 ok
    exact listsRoots_two_pow le
  · obtain ⟨k, lt, rfl⟩ := exists_double coarse fine
    exact roots_double lt

/-- The roots of order four among those of order eight, and an order beyond the generator's. -/
theorem orders_seventeen : ofParameters 17 20 4 = .ok .seventeen ∧ Nat.Prime 17 ∧
    Field.seventeen.rootOfUnity 4 = .ok 13 ∧ Field.seventeen.rootOfUnity 8 = .ok 9 ∧
    (¬ ∃ w, Field.seventeen.rootOfUnity 32 = .ok w) ∧
    orderOf ((13 : Nat) : Field.seventeen.Residue) = 4 ∧
    Field.seventeen.ListsRoots 4 [1, 13, 16, 4] [1, 4, 16, 13] ∧
    Field.seventeen.pow 9 2 = 13 := by
  have accepted : ofParameters 17 20 4 = .ok .seventeen :=
    ofParameters_eq_ok_iff.2 ⟨rfl, rfl, rfl⟩
  have prime : Nat.Prime 17 := by decide
  have four : Field.seventeen.rootOfUnity 4 = .ok 13 := by decide +kernel
  have eight : Field.seventeen.rootOfUnity 8 = .ok 9 := by decide +kernel
  have listed : Field.seventeen.roots 4 = .ok [1, 13, 16, 4] := by decide +kernel
  have inverted : Field.seventeen.rootsInv 4 = .ok [1, 4, 16, 13] := by decide +kernel
  obtain ⟨-, supported, orders, double⟩ := orders_of_ofParameters accepted prime
  obtain ⟨order, roots, inverses, ok, ok', lists⟩ := orders 4 13 four
  obtain rfl := Except.ok.inj (listed.symm.trans ok)
  obtain rfl := Except.ok.inj (inverted.symm.trans ok')
  refine ⟨accepted, prime, four, eight, fun exists_root => ?_, order, lists,
    (double 4 13 9 four eight).1⟩
  obtain ⟨k, le, eq⟩ := (supported 32).1 exists_root
  have exponent : 5 = k := Nat.pow_right_injective le_rfl (show 2 ^ 5 = 2 ^ k from eq)
  omega

end PrivateSums.Field
