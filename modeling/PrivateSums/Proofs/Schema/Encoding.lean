import PrivateSums.Proofs.Circuit.Gadget
import PrivateSums.Schema.Basic

/-!
Which values a measure takes, and the circuit inputs they become: binary digits, cells, and the
witnesses that these determine.
-/

namespace PrivateSums

/-- The lowest `width` binary digits, the least significant first. -/
def binary (n width : Nat) : List Nat := (List.range width).map fun i => n / 2 ^ i % 2

section Binary

variable {n width : Nat}

theorem length_binary : (binary n width).length = width := by simp [binary]

theorem binary_succ : binary n (width + 1) = n % 2 :: binary (n / 2) width := by
  simp only [binary, List.range_succ_eq_map, List.map_cons, List.map_map]
  refine congrArg₂ _ (by simp) (List.map_congr_left fun i _ => ?_)
  rw [Function.comp_apply, Nat.succ_eq_add_one, Nat.pow_succ', Nat.div_div_eq_div_mul]

theorem lt_of_mem_binary {x : Nat} (h : x ∈ binary n width) : x < 2 := by
  obtain ⟨i, -, rfl⟩ := List.mem_map.1 h
  exact Nat.mod_lt _ Nat.two_pos

theorem weigh_binary : weigh (binary n width) = n % 2 ^ width := by
  induction width generalizing n with
  | zero => simp [binary, weigh, Nat.mod_one]
  | succ width ih => rw [binary_succ, weigh, ih, Nat.pow_succ', Nat.mod_mul]

theorem weigh_lt {xs : List Nat} (h : ∀ x ∈ xs, x < 2) : weigh xs < 2 ^ xs.length := by
  induction xs with
  | nil => exact Nat.one_pos
  | cons x xs ih =>
    obtain ⟨first, rest⟩ := List.forall_mem_cons.1 h
    have := ih rest
    rw [weigh, List.length_cons, Nat.pow_succ']
    omega

theorem binary_weigh {xs : List Nat} (h : ∀ x ∈ xs, x < 2) : binary (weigh xs) xs.length = xs := by
  induction xs with
  | nil => rfl
  | cons x xs ih =>
    obtain ⟨first, rest⟩ := List.forall_mem_cons.1 h
    rw [List.length_cons, binary_succ, weigh]
    have low : (x + 2 * weigh xs) % 2 = x := by omega
    have high : (x + 2 * weigh xs) / 2 = weigh xs := by omega
    rw [low, high, ih rest]

/-- Numbers of few enough digits are told apart by these. -/
theorem binary_inj {m : Nat} (hm : m < 2 ^ width) (hn : n < 2 ^ width) :
    binary m width = binary n width ↔ m = n := by
  constructor
  · intro h
    have eq := congrArg weigh h
    rwa [weigh_binary, weigh_binary, Nat.mod_eq_of_lt hm, Nat.mod_eq_of_lt hn] at eq
  · rintro rfl
    rfl

theorem cast_weigh {R : Type} [CommSemiring R] (xs : List Nat) :
    ((weigh xs : Nat) : R) = weigh (xs.map (Nat.cast : Nat → R)) := by
  induction xs with
  | nil => simp [weigh]
  | cons x xs ih => rw [weigh, List.map_cons, weigh, Nat.cast_add, Nat.cast_mul, ih, Nat.cast_ofNat]

end Binary

variable {F : Field}

theorem isBit_cast {x : Nat} (h : x < 2) : IsBit (x : F.Residue) := by
  obtain rfl | rfl : x = 0 ∨ x = 1 := by omega
  · exact .inl Nat.cast_zero
  · exact .inr Nat.cast_one

/-- Lists of canonical elements are told apart by their residues. -/
theorem map_cast_inj {xs ys : List Nat} (hx : ∀ x ∈ xs, x < F.modulus)
    (hy : ∀ y ∈ ys, y < F.modulus)
    (h : xs.map (Nat.cast : Nat → F.Residue) = ys.map Nat.cast) : xs = ys := by
  have vals (zs : List Nat) (hz : ∀ z ∈ zs, z < F.modulus) :
      (zs.map (Nat.cast : Nat → F.Residue)).map ZMod.val = zs := by
    rw [List.map_map]
    exact (List.map_congr_left fun z mem => F.val_cast (hz z mem)).trans (List.map_id _)
  rw [← vals xs hx, ← vals ys hy, h]

namespace Schema

/-- Digits are those of one number below their power of two. -/
theorem exists_bitsOf {ys : List F.Residue} (length : ys.length ≤ 64) (h : ∀ y ∈ ys, IsBit y) :
    ∃ v : UInt64, v.toNat < 2 ^ ys.length ∧ (bitsOf v ys.length).map Nat.cast = ys := by
  have digits : ∃ xs : List Nat, (∀ x ∈ xs, x < 2) ∧ xs.map Nat.cast = ys := by
    clear length
    induction ys with
    | nil => exact ⟨[], by simp, rfl⟩
    | cons y ys ih =>
      obtain ⟨first, rest⟩ := List.forall_mem_cons.1 h
      obtain ⟨xs, small, eq⟩ := ih rest
      cases first with
      | inl zero => exact ⟨0 :: xs, by simpa using small, by simp [zero, eq]⟩
      | inr one => exact ⟨1 :: xs, by simpa using small, by simp [one, eq]⟩
  obtain ⟨xs, small, rfl⟩ := digits
  rw [List.length_map] at length ⊢
  have lt := weigh_lt small
  have word : (UInt64.ofNat (weigh xs)).toNat = weigh xs :=
    UInt64.toNat_ofNat_of_lt (lt.trans_le (Nat.pow_le_pow_right Nat.two_pos length))
  refine ⟨.ofNat (weigh xs), by rwa [word], ?_⟩
  change (binary _ _).map Nat.cast = _
  rw [word, binary_weigh small]

theorem weigh_bitsOf {v : UInt64} {width : Nat} (h : v.toNat < 2 ^ width) :
    weigh ((bitsOf v width).map (Nat.cast : Nat → F.Residue)) = (v.toNat : F.Residue) := by
  rw [← cast_weigh]
  change ((weigh (binary _ _) : Nat) : F.Residue) = _
  rw [weigh_binary, Nat.mod_eq_of_lt h]

theorem bitsOf_inj {v w : UInt64} {width : Nat} (hv : v.toNat < 2 ^ width)
    (hw : w.toNat < 2 ^ width) (h : bitsOf v width = bitsOf w width) : v = w :=
  UInt64.toNat_inj.1 ((binary_inj hv hw).1 h)

theorem exists_cells {ys : List F.Residue} (h : ∀ y ∈ ys, IsBit y) :
    ∃ cells : List Bool, (cells.map ofBool).map Nat.cast = ys := by
  induction ys with
  | nil => exact ⟨[], rfl⟩
  | cons y ys ih =>
    obtain ⟨first, rest⟩ := List.forall_mem_cons.1 h
    obtain ⟨cells, eq⟩ := ih rest
    cases first with
    | inl zero => exact ⟨false :: cells, by simp [ofBool, zero, eq]⟩
    | inr one => exact ⟨true :: cells, by simp [ofBool, one, eq]⟩

theorem ofBool_injective : Function.Injective ofBool := by
  intro a b
  cases a <;> cases b <;> simp [ofBool]

theorem sum_cells (cells : List Bool) :
    ((cells.map ofBool).map (Nat.cast : Nat → F.Residue)).sum = (cells.count true : Nat) := by
  induction cells with
  | nil => simp
  | cons cell cells ih =>
    rw [List.map_cons, List.map_cons, List.sum_cons, ih]
    cases cell <;> simp [ofBool, add_comm]

/-- As many cells as there are residues do not wrap around. -/
theorem sum_cells_eq_one {cells : List Bool} (h : cells.length ≤ F.modulus) :
    ((cells.map ofBool).map (Nat.cast : Nat → F.Residue)).sum = 1 ↔ cells.count true = 1 := by
  have three := F.three_le_modulus
  have le : cells.count true ≤ F.modulus := List.count_le_length.trans h
  rw [sum_cells]
  -- Only a full count wraps around, and it does so to zero.
  obtain lt | all := Nat.lt_or_eq_of_le le
  · simpa using F.cast_inj lt F.one_lt_modulus
  · have nontrivial : (0 : F.Residue) ≠ 1 := by
      simpa using (F.cast_inj F.modulus_pos F.one_lt_modulus).not
    rw [all, ZMod.natCast_self]
    constructor
    · intro h
      exact absurd h nontrivial
    · omega

theorem length_squares (x n : Nat) : (squares F x n).length = n := by
  induction n generalizing x with
  | zero => rfl
  | succ n ih => rw [squares, List.length_cons, ih]

theorem squares_lt {x n y : Nat} (h : y ∈ squares F x n) : y < F.modulus := by
  induction n generalizing x with
  | zero => cases h
  | succ n ih =>
    cases h with
    | head => exact F.mul_lt x x
    | tail _ h => exact ih h

theorem cast_squares (x n : Nat) :
    (squares F x n).map Nat.cast = repeatedSquares (x : F.Residue) n := by
  induction n generalizing x with
  | zero => rfl
  | succ n ih => rw [squares, List.map_cons, ih, F.cast_mul, repeatedSquares_succ]

theorem cast_getD (xs : List Nat) (i : Nat) :
    ((xs.getD i 0 : Nat) : F.Residue) = (xs.map Nat.cast).getD i 0 := by
  have mapped := List.getD_map (l := xs) (d := 0) (n := i) (Nat.cast : Nat → F.Residue)
  rw [← mapped, Nat.cast_zero]

theorem cast_products (xs : List Nat) :
    ((Gadget.lowerPairs xs.length).map fun p => F.mul (xs.getD p.1 0) (xs.getD p.2 0)).map
      Nat.cast = pairProducts (xs.map (Nat.cast : Nat → F.Residue)) := by
  rw [pairProducts, List.map_map, List.length_map]
  refine List.map_congr_left fun p _ => ?_
  rw [Function.comp_apply, F.cast_mul, cast_getD, cast_getD]

end Schema

namespace Measure

/-- The values of the kind, the lengths and the widths that a measure asks for. -/
inductive Takes : Measure → Value → Prop
  | int {name : String} {bits : Nat} {v : UInt64} (fits : v.toNat < 2 ^ bits) :
    Takes (.int name bits) (.int v)
  | intPow {name : String} {bits exponent : Nat} {v : UInt64} (fits : v.toNat < 2 ^ bits) :
    Takes (.intPow name bits exponent) (.int v)
  | intUnsafe {name : String} {bits : Nat} {v : UInt64} (fits : v.toNat < 2 ^ bits) :
    Takes (.intUnsafe name bits) (.int v)
  | boolOr {name : String} {b : Bool} : Takes (.boolOr name) (.bool b)
  | boolAnd {name : String} {b : Bool} : Takes (.boolAnd name) (.bool b)
  | countMin {name : String} {hashes buckets : Nat} {cells : List Bool}
    (length : cells.length = hashes * buckets) :
    Takes (.countMin name hashes buckets) (.sketch cells)
  | linReg {name : String} {bits : List Nat} {terms : List UInt64}
    (fit : List.Forall₂ (fun term width => term.toNat < 2 ^ width) terms bits) :
    Takes (.linReg name bits) (.vector terms)

open Schema in
/-- The circuit inputs of a value, whether or not its lengths and widths are right. -/
def encoding (F : Field) : Measure → Value → List Nat
  | .int _ bits, .int v => bitsOf v bits
  | .intPow _ bits exponent, .int v =>
    bitsOf v bits ++ squares F (F.reduce v.toNat) exponent.log2
  | .intUnsafe _ _, .int v => [F.reduce v.toNat]
  | .boolOr _, .bool b | .boolAnd _, .bool b => [ofBool b]
  | .countMin _ _ _, .sketch cells => cells.map ofBool
  | .linReg _ bits, .vector terms =>
    let residues := terms.map fun t => F.reduce t.toNat
    (List.zipWith bitsOf terms bits).flatten ++ (Gadget.lowerPairs terms.length).map fun p =>
      F.mul (residues.getD p.1 0) (residues.getD p.2 0)
  | _, _ => []

end Measure

namespace Schema

theorem checkWidth_eq_ok {v : UInt64} {bits : Nat} :
    checkWidth v bits = .ok () ↔ v.toNat < 2 ^ bits := by
  by_cases h : v.toNat < 2 ^ bits <;> simp [checkWidth, h]

theorem checkWidth_bind {v : UInt64} {bits : Nat} {α : Type} {f : Unit → Except ValueFault α}
    {a : α} : checkWidth v bits >>= f = .ok a ↔ v.toNat < 2 ^ bits ∧ f () = .ok a := by
  rw [Answer.bind_eq_ok, ← checkWidth_eq_ok]
  constructor
  · rintro ⟨_, h⟩
    exact h
  · intro h
    exact ⟨(), h⟩

theorem encodeTerms_eq_ok {terms : List UInt64} {bits xs : List Nat}
    (length : terms.length = bits.length) : encodeTerms terms bits = .ok xs ↔
      List.Forall₂ (fun term width => term.toNat < 2 ^ width) terms bits ∧
        (List.zipWith bitsOf terms bits).flatten = xs := by
  induction terms generalizing bits xs with
  | nil =>
    obtain rfl := List.length_eq_zero_iff.1 length.symm
    simp [encodeTerms]
  | cons term terms ih =>
    obtain ⟨width, bits, rfl⟩ := List.exists_cons_of_length_eq_add_one length.symm
    rw [encodeTerms, checkWidth_bind, List.forall₂_cons, Answer.bind_eq_ok]
    simp only [ih (Nat.succ.inj length)]
    constructor
    · rintro ⟨first, rest, ⟨fit, rfl⟩, eq⟩
      exact ⟨⟨first, fit⟩, Except.ok.inj eq⟩
    · rintro ⟨⟨first, fit⟩, rfl⟩
      exact ⟨first, _, ⟨fit, rfl⟩, rfl⟩

/-- The encoder takes the values that a measure does, and answers their inputs. -/
theorem encodeValue_eq_ok {F : Field} {m : Measure} {v : Value} {xs : List Nat} :
    encodeValue F m v = .ok xs ↔ m.Takes v ∧ m.encoding F v = xs := by
  constructor
  · intro h
    cases m with
    | int name bits =>
      cases v with
      | int v =>
        obtain ⟨fits, eq⟩ := checkWidth_bind.1 h
        exact ⟨.int fits, Except.ok.inj eq⟩
      | _ => cases h
    | intPow name bits exponent =>
      cases v with
      | int v =>
        obtain ⟨fits, eq⟩ := checkWidth_bind.1 h
        exact ⟨.intPow fits, Except.ok.inj eq⟩
      | _ => cases h
    | intUnsafe name bits =>
      cases v with
      | int v =>
        obtain ⟨fits, eq⟩ := checkWidth_bind.1 h
        exact ⟨.intUnsafe fits, Except.ok.inj eq⟩
      | _ => cases h
    | boolOr name =>
      cases v with
      | bool b => exact ⟨.boolOr, Except.ok.inj h⟩
      | _ => cases h
    | boolAnd name =>
      cases v with
      | bool b => exact ⟨.boolAnd, Except.ok.inj h⟩
      | _ => cases h
    | countMin name hashes buckets =>
      cases v with
      | sketch cells =>
        by_cases length : cells.length = hashes * buckets
        · rw [encodeValue, if_pos length] at h
          exact ⟨.countMin length, Except.ok.inj h⟩
        · rw [encodeValue, if_neg length] at h
          cases h
      | _ => cases h
    | linReg name bits =>
      cases v with
      | vector terms =>
        by_cases length : terms.length = bits.length
        · rw [encodeValue, if_pos length] at h
          obtain ⟨digits, eq, eq'⟩ := Answer.bind_eq_ok.1 h
          obtain ⟨fit, rfl⟩ := (encodeTerms_eq_ok length).1 eq
          exact ⟨.linReg fit, Except.ok.inj eq'⟩
        · rw [encodeValue, if_neg length] at h
          cases h
      | _ => cases h
  · rintro ⟨takes, rfl⟩
    cases takes with
    | int fits => exact checkWidth_bind.2 ⟨fits, rfl⟩
    | intPow fits => exact checkWidth_bind.2 ⟨fits, rfl⟩
    | intUnsafe fits => exact checkWidth_bind.2 ⟨fits, rfl⟩
    | boolOr => rfl
    | boolAnd => rfl
    | countMin length => rw [encodeValue, if_pos length]; rfl
    | linReg fit =>
      rw [encodeValue, if_pos fit.length_eq]
      exact Answer.bind_eq_ok.2 ⟨_, (encodeTerms_eq_ok fit.length_eq).2 ⟨fit, rfl⟩, rfl⟩

end Schema

end PrivateSums
