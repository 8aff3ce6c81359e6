import PrivateSums.Proofs.Schema.Encoding

/-!
The circuit of one measure and the encoding of one value are about the same inputs: the circuit
accepts an encoding exactly when every row of a sketch has one set cell, and where it checks all of
its inputs it accepts nothing else.
-/

namespace PrivateSums

namespace Measure

/-- What wires show of a measure's gadget. -/
def Reads (F : Field) : Measure → Reading F → Prop
  | int name bits, r => ∃ value, Gadget.IsInt bits name value r
  | intPow name bits exponent, r => ∃ (value : F.Residue) (digits powers : Reading F),
      Gadget.IsIntPow bits exponent.log2 name value digits powers ∧ r = digits ++ powers
  | intUnsafe name _, r | boolOr name, r | boolAnd name, r => ∃ x, r = ⟨[x], [(name, x)], True⟩
  | countMin name hashes buckets, r => Gadget.IsSketch hashes buckets name r
  | linReg name bits, r => ∃ (blocks : List (List F.Residue)) (products : List F.Residue),
      Gadget.IsRegression bits name blocks products r

section Circuit

theorem checkBits_eq_ok {bits : Nat} : checkBits bits = .ok () ↔ 0 < bits ∧ bits ≤ 64 := by
  by_cases h : bits = 0 ∨ maxMeasureBits < bits
  · have outside : ¬(0 < bits ∧ bits ≤ 64) := by
      simp only [maxMeasureBits] at h
      omega
    simp [checkBits, h, outside]
  · have inside : 0 < bits ∧ bits ≤ 64 := by
      simp only [maxMeasureBits] at h
      omega
    simp [checkBits, h, inside]

theorem forM_checkBits {bits : List Nat} :
    bits.forM checkBits = .ok () ↔ ∀ width ∈ bits, 0 < width ∧ width ≤ 64 := by
  induction bits with
  | nil => simp
  | cons width bits ih =>
    rw [List.forall_mem_cons, ← ih, ← checkBits_eq_ok]
    change checkBits width >>= (fun _ => bits.forM checkBits) = _ ↔ _
    rw [Answer.bind_eq_ok]
    constructor
    · rintro ⟨_, first, rest⟩
      exact ⟨first, rest⟩
    · rintro ⟨first, rest⟩
      exact ⟨(), first, rest⟩

theorem exponent_of_intPow {name : String} {bits exponent : Nat}
    (valid : (intPow name bits exponent).validate = .ok ()) :
    (0 < bits ∧ bits ≤ 64) ∧ exponent ∈ [2, 4, 8] := by
  obtain ⟨_, width, power⟩ := Answer.bind_eq_ok.1 valid
  refine ⟨checkBits_eq_ok.1 width, ?_⟩
  by_contra unlisted
  rw [if_neg unlisted] at power
  cases power

theorem sizes_of_countMin {name : String} {hashes buckets : Nat}
    (valid : (countMin name hashes buckets).validate = .ok ()) :
    (0 < hashes ∧ hashes < hashLimit) ∧ 0 < buckets ∧ buckets < bucketLimit := by
  by_cases rows : hashes = 0 ∨ hashLimit ≤ hashes
  · simp [validate, rows] at valid
  · by_cases columns : buckets = 0 ∨ bucketLimit ≤ buckets
    · simp [validate, rows, columns] at valid
    · omega

theorem fits_of_linReg {name : String} {bits : List Nat}
    (valid : (linReg name bits).validate = .ok ()) :
    2 ≤ bits.length ∧ ∀ width ∈ bits, 0 < width ∧ width ≤ 64 := by
  by_cases few : bits.length < 2
  · rw [validate, if_pos few] at valid
    cases valid
  · rw [validate, if_neg few] at valid
    exact ⟨by omega, forM_checkBits.1 valid⟩

variable (F : Field)

theorem validate_of_circuit {m : Measure} {c : Circuit} (h : m.circuit F = .ok c) :
    m.validate = .ok () := by
  obtain ⟨_, valid, -⟩ := Answer.bind_eq_ok.1 h
  exact Answer.mapError_eq_ok.1 valid

open Builder Gadget in
theorem yields_gadget {m : Measure} (valid : m.validate = .ok ()) :
    Yields F .empty (m.gadget F) fun _ _ r => m.Reads F r := by
  cases m with
  | int name bits =>
    obtain ⟨pos, le⟩ := checkBits_eq_ok.1 valid
    exact ((yields_int pos le name).mono fun id W r isInt => ⟨W id, isInt⟩).discard
  | intPow name bits exponent =>
    obtain ⟨⟨pos, le⟩, listed⟩ := exponent_of_intPow valid
    have steps : squarings exponent = .ok exponent.log2 := by
      simp only [List.mem_cons, List.not_mem_nil, or_false] at listed
      obtain rfl | rfl | rfl := listed <;> rfl
    refine Yields.discard ((yields_intPow pos le steps name).mono fun id W r isIntPow => ?_)
    exact ⟨W id, isIntPow⟩
  | intUnsafe name _ | boolOr name | boolAnd name =>
    exact ((yields_free name).mono fun id W r eq => ⟨W id, eq⟩).discard
  | countMin name hashes buckets =>
    obtain ⟨⟨rows, -⟩, columns, -⟩ := sizes_of_countMin valid
    exact yields_countMin (Nat.ne_of_gt rows) (Nat.ne_of_gt columns) name
  | linReg name bits =>
    obtain ⟨two, fits⟩ := fits_of_linReg valid
    exact yields_linReg two fits name

/-- A measure with valid parameters has a circuit, of which wires show what its gadget does. -/
theorem circuit_of_validate {m : Measure} (valid : m.validate = .ok ()) :
    ∃ c, m.circuit F = .ok c ∧ c.Means F (m.Reads F) := by
  obtain ⟨c, built, means⟩ := (yields_gadget F valid).build
  refine ⟨c, ?_, means⟩
  rw [circuit, valid, built]
  rfl

theorem means_circuit {m : Measure} {c : Circuit} (h : m.circuit F = .ok c) :
    c.Means F (m.Reads F) := by
  obtain ⟨d, ok, means⟩ := circuit_of_validate F (validate_of_circuit F h)
  obtain rfl := Except.ok.inj (ok.symm.trans h)
  exact means

end Circuit

/-- Every row of a sketch has exactly one set cell. -/
def IsOneHot : Measure → Value → Prop
  | .countMin _ hashes buckets, .sketch cells =>
    ∀ row < hashes, ((cells.drop (row * buckets)).take buckets).count true = 1
  | _, _ => True

/-- The number of cells in a row of a sketch. -/
def rowLength : Measure → Nat
  | countMin _ _ buckets => buckets
  | _ => 0

/-- The aggregated outputs for a value: integers modulo the modulus, with their powers up to the
exponent or their products, and bits. -/
def outputs (F : Field) : Measure → Value → List (String × Nat)
  | .int name _, .int v | .intUnsafe name _, .int v => [(name, v.toNat % F.modulus)]
  | .intPow name _ exponent, .int v =>
    (name, v.toNat % F.modulus) :: ([2, 4, 8].filter (· ≤ exponent)).map fun e =>
      (s!"{name}-pow", v.toNat ^ e % F.modulus)
  | .boolOr name, .bool b | .boolAnd name, .bool b => [(name, if b then 1 else 0)]
  | .countMin name _ _, .sketch cells =>
    cells.zipIdx.map fun x => (s!"{name}[{x.2}]", if x.1 then 1 else 0)
  | .linReg name _, .vector terms =>
    let values := terms.map UInt64.toNat
    (values.zipIdx.map fun x => (s!"{name}-bits[{x.2}]", x.1 % F.modulus)) ++
      (Gadget.lowerPairs values.length).map fun p =>
        (s!"{name}-prod[{p.1}*{p.2}]", values.getD p.1 0 * values.getD p.2 0 % F.modulus)
  | _, _ => []

section Encoding

open Schema

variable {F : Field} {m : Measure} {v : Value} {r : Reading F}

theorem ofBool_lt (b : Bool) : ofBool b < F.modulus := by
  have three := F.three_le_modulus
  have : ofBool b ≤ 1 := by cases b <;> decide
  omega

theorem val_ofBool (b : Bool) : ((ofBool b : Nat) : F.Residue).val = if b then 1 else 0 :=
  (F.val_cast (ofBool_lt b)).trans rfl

theorem exists_of_mem_digits {terms : List UInt64} {bits block : List Nat}
    (mem : block ∈ List.zipWith bitsOf terms bits) :
    ∃ (v : UInt64) (width : Nat), block = bitsOf v width := by
  rw [← List.map_uncurry_zip_eq_zipWith] at mem
  obtain ⟨p, -, rfl⟩ := List.mem_map.1 mem
  exact ⟨p.1, p.2, rfl⟩

theorem encoding_lt (takes : m.Takes v) : ∀ x ∈ m.encoding F v, x < F.modulus := by
  have three := F.three_le_modulus
  have digit (v : UInt64) (width x : Nat) (mem : x ∈ bitsOf v width) : x < F.modulus := by
    have := lt_of_mem_binary mem
    omega
  intro x mem
  cases takes with
  | int => exact digit _ _ _ mem
  | intPow =>
    cases List.mem_append.1 mem with
    | inl mem => exact digit _ _ _ mem
    | inr mem => exact squares_lt mem
  | intUnsafe =>
    obtain rfl := List.mem_singleton.1 mem
    exact F.reduce_lt _
  | boolOr | boolAnd =>
    obtain rfl := List.mem_singleton.1 mem
    exact ofBool_lt _
  | countMin =>
    obtain ⟨b, -, rfl⟩ := List.mem_map.1 mem
    exact ofBool_lt b
  | linReg =>
    cases List.mem_append.1 mem with
    | inl mem =>
      obtain ⟨block, block_mem, mem⟩ := List.mem_flatten.1 mem
      obtain ⟨v, width, rfl⟩ := exists_of_mem_digits block_mem
      exact digit _ _ _ mem
    | inr mem =>
      obtain ⟨p, -, rfl⟩ := List.mem_map.1 mem
      exact F.mul_lt _ _

theorem isBit_bitsOf {v : UInt64} {width : Nat} {x : F.Residue}
    (mem : x ∈ (bitsOf v width).map Nat.cast) : IsBit x := by
  obtain ⟨n, digit, rfl⟩ := List.mem_map.1 mem
  exact isBit_cast (lt_of_mem_binary digit)

theorem isBit_ofBool {cells : List Bool} {x : F.Residue}
    (mem : x ∈ (cells.map ofBool).map Nat.cast) : IsBit x := by
  obtain ⟨n, cell, rfl⟩ := List.mem_map.1 mem
  obtain ⟨b, -, rfl⟩ := List.mem_map.1 cell
  exact isBit_cast (by cases b <;> decide)

theorem repeatedSquares_log2 {x : F.Residue} {exponent : Nat} (h : exponent ∈ [2, 4, 8]) :
    repeatedSquares x exponent.log2 = ([2, 4, 8].filter (· ≤ exponent)).map (x ^ ·) := by
  simp only [List.mem_cons, List.not_mem_nil, or_false] at h
  obtain rfl | rfl | rfl := h <;> rfl

/-- The inputs of an integer and its squares, when they are an encoding. -/
theorem split_intPow {bits steps : Nat} {name : String} {v : UInt64} {value : F.Residue}
    {digits powers : Reading F} (reads : Gadget.IsIntPow bits steps name value digits powers)
    (fits : v.toNat < 2 ^ bits)
    (eq : digits.inputs ++ powers.inputs =
      (bitsOf v bits ++ squares F (F.reduce v.toNat) steps).map Nat.cast) :
    digits.inputs = (bitsOf v bits).map Nat.cast ∧ value = (v.toNat : F.Residue) ∧
      powers.inputs = repeatedSquares value steps := by
  rw [List.map_append] at eq
  have length :
      digits.inputs.length = ((bitsOf v bits).map (Nat.cast : Nat → F.Residue)).length := by
    rw [reads.int.length, List.length_map]
    exact length_binary.symm
  obtain ⟨left, right⟩ := List.append_inj eq length
  have value_eq : value = (v.toNat : F.Residue) := by
    rw [reads.int.value_eq, left, weigh_bitsOf fits]
  refine ⟨left, value_eq, ?_⟩
  rw [right, cast_squares, F.cast_reduce, value_eq]

section Terms

variable {terms : List UInt64} {bits : List Nat}
  (fit : List.Forall₂ (fun term width => term.toNat < 2 ^ width) terms bits)

include fit

theorem lengths_digits : (List.zipWith bitsOf terms bits).map List.length = bits := by
  induction fit with
  | nil => rfl
  | cons _ _ ih => rw [List.zipWith_cons_cons, List.map_cons, ih, bitsOf, List.length_map,
      List.length_range]

theorem weigh_digits :
    ((List.zipWith bitsOf terms bits).map (List.map (Nat.cast : Nat → F.Residue))).map weigh =
      (terms.map UInt64.toNat).map Nat.cast := by
  induction fit with
  | nil => rfl
  | cons first _ ih =>
    rw [List.zipWith_cons_cons, List.map_cons, List.map_cons, ih, weigh_bitsOf first,
      List.map_cons, List.map_cons]

/-- The encoding of a regression, as residues. -/
theorem cast_encoding_linReg (name : String) :
    ((linReg name bits).encoding F (.vector terms)).map Nat.cast =
      ((List.zipWith bitsOf terms bits).map (List.map (Nat.cast : Nat → F.Residue))).flatten ++
        pairProducts (((List.zipWith bitsOf terms bits).map (List.map Nat.cast)).map weigh) := by
  have products := cast_products (F := F) (terms.map fun t => F.reduce t.toNat)
  rw [List.length_map] at products
  rw [encoding, List.map_append, List.map_flatten, products, weigh_digits fit, List.map_map,
    List.map_map]
  simp [Function.comp_def]

/-- The inputs of a regression, when they are an encoding. -/
theorem split_linReg {name : String} {blocks : List (List F.Residue)} {products : List F.Residue}
    (reads : Gadget.IsRegression bits name blocks products r)
    (eq : r.inputs = ((linReg name bits).encoding F (.vector terms)).map Nat.cast) :
    (∀ block ∈ blocks, ∀ x ∈ block, IsBit x) ∧
      blocks.map weigh = (terms.map UInt64.toNat).map Nat.cast ∧
      products = pairProducts (blocks.map weigh) := by
  have sizes : blocks.map List.length =
      ((List.zipWith bitsOf terms bits).map (List.map (Nat.cast : Nat → F.Residue))).map
        List.length := by
    refine reads.lengths.trans ((lengths_digits fit).symm.trans ?_)
    simp
  have total := congrArg List.sum sizes
  rw [← List.length_flatten, ← List.length_flatten] at total
  rw [reads.inputs, cast_encoding_linReg fit] at eq
  obtain ⟨left, right⟩ := List.append_inj eq total
  have digits := List.eq_iff_flatten_eq.2 ⟨left, sizes⟩
  rw [← digits] at right
  refine ⟨?_, digits ▸ weigh_digits fit, right⟩
  rw [digits]
  intro block mem x mem'
  obtain ⟨encoded, encoded_mem, rfl⟩ := List.mem_map.1 mem
  obtain ⟨v, width, rfl⟩ := exists_of_mem_digits encoded_mem
  exact isBit_bitsOf mem'

theorem terms_inj {terms' : List UInt64}
    (fit' : List.Forall₂ (fun term width => term.toNat < 2 ^ width) terms' bits)
    (eq : List.zipWith bitsOf terms bits = List.zipWith bitsOf terms' bits) : terms = terms' := by
  induction fit generalizing terms' with
  | nil => exact (List.forall₂_nil_right_iff.1 fit').symm
  | cons first _ ih =>
    obtain ⟨term', rest', first', others, rfl⟩ := List.forall₂_cons_right_iff.1 fit'
    rw [List.zipWith_cons_cons, List.zipWith_cons_cons, List.cons.injEq] at eq
    rw [bitsOf_inj first first' eq.1, ih others eq.2]

end Terms

/-- Blocks of digits are those of one list of terms. -/
theorem exists_terms {blocks : List (List F.Residue)} (le : ∀ block ∈ blocks, block.length ≤ 64)
    (digits : ∀ block ∈ blocks, ∀ x ∈ block, IsBit x) :
    ∃ terms : List UInt64,
      List.Forall₂ (fun term width => term.toNat < 2 ^ width) terms (blocks.map List.length) ∧
        (List.zipWith bitsOf terms (blocks.map List.length)).map (List.map Nat.cast) = blocks := by
  induction blocks with
  | nil => exact ⟨[], .nil, rfl⟩
  | cons block blocks ih =>
    obtain ⟨first_le, rest_le⟩ := List.forall_mem_cons.1 le
    obtain ⟨first, rest⟩ := List.forall_mem_cons.1 digits
    obtain ⟨terms, fit, eq⟩ := ih rest_le rest
    obtain ⟨term, fits, eq'⟩ := exists_bitsOf first_le first
    refine ⟨term :: terms, .cons fits fit, ?_⟩
    rw [List.map_cons, List.zipWith_cons_cons, List.map_cons, eq, eq']

/-- A row of a sketch, when it is an encoding. -/
theorem sum_row {name : String} {hashes buckets : Nat} {cells : List Bool}
    (eq : r.inputs = ((countMin name hashes buckets).encoding F (.sketch cells)).map Nat.cast)
    (row : Nat) : ((r.inputs.drop (row * buckets)).take buckets).sum =
      ((((cells.drop (row * buckets)).take buckets).map ofBool).map Nat.cast).sum := by
  rw [eq]
  change (List.take _ (List.drop _ ((cells.map ofBool).map Nat.cast))).sum = _
  rw [← List.map_drop, ← List.map_drop, ← List.map_take, ← List.map_take]

/-- A measure's circuit accepts the encodings of values with one set cell per row. -/
theorem valid_of_isOneHot (takes : m.Takes v) (reads : m.Reads F r)
    (eq : r.inputs = (m.encoding F v).map Nat.cast) (oneHot : m.IsOneHot v) : r.valid := by
  cases takes with
  | int =>
    obtain ⟨value, isInt⟩ := reads
    rw [isInt.valid, eq]
    exact fun x mem => (isBit_bitsOf mem).isIdempotentElem
  | intPow fit =>
    obtain ⟨value, digits, powers, isIntPow, rfl⟩ := reads
    obtain ⟨left, -, right⟩ := split_intPow isIntPow fit eq
    refine ⟨isIntPow.int.valid.2 fun x mem => ?_, isIntPow.valid.2 right⟩
    rw [left] at mem
    exact (isBit_bitsOf mem).isIdempotentElem
  | intUnsafe | boolOr | boolAnd =>
    obtain ⟨x, rfl⟩ := reads
    trivial
  | @countMin name hashes buckets cells length =>
    have reads : Gadget.IsSketch hashes buckets name r := reads
    refine reads.valid.2 ⟨fun x mem => ?_, fun row hrow => ?_⟩
    · rw [eq] at mem
      exact (isBit_ofBool mem).isIdempotentElem
    · have one : ((cells.drop (row * buckets)).take buckets).count true = 1 := oneHot row hrow
      rw [sum_row eq, sum_cells, one, Nat.cast_one]
  | linReg fit =>
    obtain ⟨blocks, products, isRegression⟩ := reads
    obtain ⟨digits, -, product⟩ := split_linReg fit isRegression eq
    exact isRegression.valid.2
      ⟨fun block mem x mem' => (digits block mem x mem').isIdempotentElem, product⟩

/-- With no more cells in a row than there are residues, it accepts no other encodings. -/
theorem isOneHot_of_valid (takes : m.Takes v) (reads : m.Reads F r)
    (eq : r.inputs = (m.encoding F v).map Nat.cast) (fits : m.rowLength ≤ F.modulus)
    (valid : r.valid) : m.IsOneHot v := by
  cases takes with
  | @countMin name hashes buckets cells length =>
    have reads : Gadget.IsSketch hashes buckets name r := reads
    intro row hrow
    have few : ((cells.drop (row * buckets)).take buckets).length ≤ F.modulus :=
      (List.length_take_le _ _).trans fits
    have one := (reads.valid.1 valid).2 row hrow
    rwa [sum_row eq, sum_cells_eq_one few] at one
  | _ => exact trivial

theorem length_encoding (takes : m.Takes v) (reads : m.Reads F r) :
    (m.encoding F v).length = r.inputs.length := by
  cases takes with
  | int =>
    obtain ⟨value, isInt⟩ := reads
    exact length_binary.trans isInt.length.symm
  | intPow =>
    obtain ⟨value, digits, powers, isIntPow, rfl⟩ := reads
    change List.length (_ ++ _) = List.length (_ ++ _)
    rw [List.length_append, List.length_append, length_squares, isIntPow.length,
      isIntPow.int.length]
    exact congrArg (· + _) length_binary
  | intUnsafe | boolOr | boolAnd =>
    obtain ⟨x, rfl⟩ := reads
    rfl
  | countMin length => exact (List.length_map _).trans (length.trans reads.length.symm)
  | linReg fit =>
    obtain ⟨blocks, products, isRegression⟩ := reads
    rw [isRegression.inputs, encoding, List.length_append, List.length_append,
      List.length_flatten, List.length_flatten, lengths_digits fit, isRegression.lengths,
      isRegression.length, List.length_map, fit.length_eq]

/-- The aggregated outputs are those of the value, accepted or not. -/
theorem outputs_eq (valid : m.validate = .ok ()) (takes : m.Takes v) (reads : m.Reads F r)
    (eq : r.inputs = (m.encoding F v).map Nat.cast) :
    r.outputs.map (fun o => (o.1, o.2.val)) = m.outputs F v := by
  cases takes with
  | int fit =>
    obtain ⟨value, isInt⟩ := reads
    rw [isInt.outputs, isInt.value_eq, eq, encoding, weigh_bitsOf fit]
    simp [outputs, ZMod.val_natCast]
  | intPow fit =>
    obtain ⟨value, digits, powers, isIntPow, rfl⟩ := reads
    obtain ⟨-, rfl, right⟩ := split_intPow isIntPow fit eq
    rw [Reading.append_def, isIntPow.int.outputs, isIntPow.outputs, right,
      repeatedSquares_log2 (exponent_of_intPow valid).2, List.map_append, List.map_map,
      List.map_map]
    refine congrArg₂ (List.cons ·) (congrArg (Prod.mk _) (ZMod.val_natCast ..)) ?_
    refine List.map_congr_left fun e _ => congrArg (Prod.mk _) ?_
    rw [← ZMod.val_natCast, Nat.cast_pow]
  | @intUnsafe name bits v =>
    obtain ⟨x, rfl⟩ := reads
    obtain rfl : x = (v.toNat : F.Residue) := by simpa [encoding] using eq
    simp [outputs, ZMod.val_natCast]
  | @boolOr name b | @boolAnd name b =>
    obtain ⟨x, rfl⟩ := reads
    obtain rfl : x = (ofBool b : Nat) := by simpa [encoding] using eq
    exact congrArg (fun n => [(name, n)]) (val_ofBool b)
  | @countMin name hashes buckets cells length =>
    have reads : Gadget.IsSketch hashes buckets name r := reads
    have cells_eq : r.inputs = cells.map (Nat.cast ∘ ofBool) := eq.trans List.map_map
    rw [reads.outputs, cells_eq, List.zipIdx_map, List.map_map, List.map_map, outputs]
    exact List.map_congr_left fun x _ => congrArg (Prod.mk _) (val_ofBool x.1)
  | @linReg name bits terms fit =>
    obtain ⟨blocks, products, isRegression⟩ := reads
    obtain ⟨-, values, product⟩ := split_linReg fit isRegression eq
    have length : ((terms.map UInt64.toNat).map (Nat.cast : Nat → F.Residue)).length =
        bits.length := by
      rw [List.length_map, List.length_map, fit.length_eq]
    have zipped (f : Nat × Nat → F.Residue) (pairs : List (Nat × Nat)) :
        pairs.zip (pairs.map f) = pairs.map fun p => (p, f p) := by
      simpa using List.zip_map' (f := id) (g := f) (l := pairs)
    rw [isRegression.outputs, product, values, List.map_append, outputs]
    refine congrArg₂ _ ?_ ?_
    · rw [List.zipIdx_map, List.map_map, List.map_map]
      exact List.map_congr_left fun x _ => congrArg (Prod.mk _) (ZMod.val_natCast ..)
    · rw [pairProducts, length, zipped, List.map_map, List.map_map, List.length_map,
        fit.length_eq]
      refine List.map_congr_left fun p _ => congrArg (Prod.mk _) ?_
      dsimp only
      rw [← cast_getD, ← cast_getD, ← Nat.cast_mul, ZMod.val_natCast]

/-- The measures whose circuits check all of their inputs. -/
def isChecked : Measure → Bool
  | int .. | intPow .. | countMin .. | linReg .. => true
  | intUnsafe .. | boolOr .. | boolAnd .. => false

/-- In a prime field a checked measure accepts nothing but encodings. -/
theorem exists_takes_of_valid [Fact F.modulus.Prime] (checked : m.isChecked)
    (valid : m.validate = .ok ()) (reads : m.Reads F r) (accepted : r.valid) :
    ∃ v, m.Takes v ∧ r.inputs = (m.encoding F v).map Nat.cast := by
  have areBits {xs : List F.Residue} (h : ∀ x ∈ xs, IsIdempotentElem x) : ∀ x ∈ xs, IsBit x :=
    fun x mem => isIdempotentElem_iff_isBit.1 (h x mem)
  cases m with
  | int name bits =>
    obtain ⟨value, isInt⟩ := reads
    have le := (checkBits_eq_ok.1 valid).2
    rw [← isInt.length] at le
    obtain ⟨v, fit, eq⟩ := exists_bitsOf le (areBits (isInt.valid.1 accepted))
    rw [isInt.length] at fit eq
    exact ⟨.int v, .int fit, eq.symm⟩
  | intPow name bits exponent =>
    obtain ⟨value, digits, powers, isIntPow, rfl⟩ := reads
    have le := (exponent_of_intPow valid).1.2
    rw [← isIntPow.int.length] at le
    obtain ⟨v, fit, eq⟩ := exists_bitsOf le (areBits (isIntPow.int.valid.1 accepted.1))
    rw [isIntPow.int.length] at fit eq
    have value_eq : value = (v.toNat : F.Residue) := by
      rw [isIntPow.int.value_eq, ← eq, weigh_bitsOf fit]
    refine ⟨.int v, .intPow fit, ?_⟩
    rw [encoding, List.map_append, eq, cast_squares, F.cast_reduce, ← value_eq,
      ← isIntPow.valid.1 accepted.2]
    rfl
  | countMin name hashes buckets =>
    have reads : Gadget.IsSketch hashes buckets name r := reads
    obtain ⟨cells, eq⟩ := exists_cells (areBits (reads.valid.1 accepted).1)
    refine ⟨.sketch cells, .countMin ?_, eq.symm⟩
    rw [← reads.length, ← eq, List.length_map, List.length_map]
  | linReg name bits =>
    obtain ⟨blocks, products, isRegression⟩ := reads
    obtain ⟨digits, product⟩ := isRegression.valid.1 accepted
    have le : ∀ block ∈ blocks, block.length ≤ 64 := by
      intro block mem
      have width_mem : block.length ∈ bits := isRegression.lengths ▸ List.mem_map_of_mem mem
      exact ((fits_of_linReg valid).2 _ width_mem).2
    obtain ⟨terms, fit, eq⟩ := exists_terms le fun block mem => areBits (digits block mem)
    rw [isRegression.lengths] at fit eq
    refine ⟨.vector terms, .linReg fit, ?_⟩
    rw [isRegression.inputs, cast_encoding_linReg fit, eq, ← product]
  | _ => cases checked

/-- Values of a checked measure are told apart by their encodings. -/
theorem encoding_inj (checked : m.isChecked) {w : Value} (takes : m.Takes v) (takes' : m.Takes w)
    (eq : m.encoding F v = m.encoding F w) : v = w := by
  cases takes with
  | int fit =>
    cases takes' with
    | int fit' => rw [bitsOf_inj fit fit' eq]
  | intPow fit =>
    cases takes' with
    | intPow fit' =>
      obtain ⟨left, -⟩ := List.append_inj eq (length_binary.trans length_binary.symm)
      rw [bitsOf_inj fit fit' left]
  | countMin length =>
    cases takes' with
    | countMin length' => rw [List.map_injective_iff.2 ofBool_injective eq]
  | linReg fit =>
    cases takes' with
    | linReg fit' =>
      have sizes := (lengths_digits fit).trans (lengths_digits fit').symm
      have total := congrArg List.sum sizes
      rw [← List.length_flatten, ← List.length_flatten] at total
      obtain ⟨left, -⟩ := List.append_inj eq total
      rw [terms_inj fit fit' (List.eq_iff_flatten_eq.2 ⟨left, sizes⟩)]
  | _ => cases checked

end Encoding

end Measure

end PrivateSums
