import PrivateSums.Proofs.Answer
import PrivateSums.Proofs.Random.ElementStream
import PrivateSums.Share.Triple

/-!
Triples that are dealt are canonical, and valid whatever was drawn. What is added to one share of a
valid triple shows, but for multiples of the modulus, and in a factor for what the other factor
takes to one.
-/

namespace PrivateSums.TripleShare

variable {F : Field}

theorem isCanonical_iff {t : TripleShare} :
    t.isCanonical F ↔ t.a < F.modulus ∧ t.b < F.modulus ∧ t.c < F.modulus := by
  simp [isCanonical, Field.contains, and_assoc]

/-- Validity, between residues. -/
theorem isValid_iff {shares : List TripleShare} : isValid F shares ↔
    (shares.map fun t => (t.a : F.Residue)).sum * (shares.map fun t => (t.b : F.Residue)).sum =
      (shares.map fun t => (t.c : F.Residue)).sum := by
  rw [isValid, total, beq_iff_eq, ← F.cast_inj (F.mul_lt _ _) (F.sum_lt _), F.cast_mul, F.cast_sum,
    F.cast_sum, F.cast_sum, List.map_map, List.map_map, List.map_map]
  rfl

theorem isValid_corrected {shares : List TripleShare} (h : shares ≠ []) :
    isValid F (corrected F shares) := by
  rw [isValid_iff]
  cases shares with
  | nil => exact absurd rfl h
  | cons t ts =>
    simp only [corrected, List.modifyHead_cons, List.map_cons, List.sum_cons, F.cast_add,
      F.cast_sub, F.cast_mul, total, F.cast_sum, List.map_map, Function.comp_def]
    ring

theorem canonical_corrected {shares : List TripleShare} (h : ∀ t ∈ shares, t.isCanonical F) :
    ∀ t ∈ corrected F shares, t.isCanonical F := by
  cases shares with
  | nil => simp [corrected]
  | cons t ts =>
    intro t' ht'
    obtain rfl | mem := List.mem_cons.1 ht'
    · obtain ⟨a, b, -⟩ := isCanonical_iff.1 (h t List.mem_cons_self)
      exact isCanonical_iff.2 ⟨a, b, F.add_lt _ _⟩
    · exact h t' (List.mem_cons_of_mem _ mem)

variable {σ : Type} [WordSource σ]

theorem canonical_random (s : σ) : ((random F).run s).1.isCanonical F :=
  isCanonical_iff.2 ⟨F.random_lt _, F.random_lt _, F.random_lt _⟩

theorem randoms_succ_run (n : Nat) (s : σ) : ((randoms F (n + 1)).run s).1 =
    ((random F).run s).1 :: ((randoms F n).run ((random F).run s).2).1 := rfl

theorem length_randoms (n : Nat) (s : σ) : ((randoms F n).run s).1.length = n := by
  induction n generalizing s with
  | zero => rfl
  | succ n ih => rw [randoms_succ_run, List.length_cons, ih]

theorem canonical_randoms (n : Nat) (s : σ) : ∀ t ∈ ((randoms F n).run s).1, t.isCanonical F := by
  induction n generalizing s with
  | zero => exact fun t ht => absurd ht List.not_mem_nil
  | succ n ih =>
    rw [randoms_succ_run]
    intro t ht
    obtain rfl | ht := List.mem_cons.1 ht
    · exact canonical_random s
    · exact ih _ t ht

theorem length_corrected (shares : List TripleShare) :
    (corrected F shares).length = shares.length := by
  cases shares <;> rfl

/-- What is dealt is one canonical share per server of a valid triple. -/
theorem deal_run {servers : Nat} (h : servers ≠ 0) (s : σ) : ∃ triples s',
    (deal F servers).run.run s = (.ok triples, s') ∧ triples.length = servers ∧
      (∀ t ∈ triples, t.isCanonical F) ∧ isValid F triples := by
  refine ⟨corrected F ((randoms F servers).run s).1, ((randoms F servers).run s).2, ?_, ?_,
    canonical_corrected (canonical_randoms servers s), isValid_corrected ?_⟩
  · rw [deal, if_neg h]
    rfl
  · rw [length_corrected, length_randoms]
  · apply List.ne_nil_of_length_pos
    rw [length_randoms]
    omega

section Tampering

variable {shares : List TripleShare} {i amount : Nat} {t : TripleShare}

/-- Validity, with one server's share apart. -/
theorem isValid_set_iff (inside : i < shares.length) (t : TripleShare) :
    isValid F (shares.set i t) ↔ ((F.sum ((shares.eraseIdx i).map (·.a)) + t.a) *
        (F.sum ((shares.eraseIdx i).map (·.b)) + t.b) : F.Residue) =
      F.sum ((shares.eraseIdx i).map (·.c)) + t.c := by
  rw [isValid, total, beq_iff_eq, ← F.cast_inj (F.mul_lt _ _) (F.sum_lt _), F.cast_mul,
    F.cast_sum_set _ inside, F.cast_sum_set _ inside, F.cast_sum_set _ inside]

theorem cast_of_modEq {v v' : Nat} (added : v' ≡ v + amount [MOD F.modulus]) :
    (v' : F.Residue) = v + amount := by
  rw [← Nat.cast_add, ZMod.natCast_eq_natCast_iff]
  exact added

theorem isValid_set_c (valid : isValid F shares) (found : shares[i]? = some t) {c : Nat}
    (added : c ≡ t.c + amount [MOD F.modulus]) :
    isValid F (shares.set i { t with c }) ↔ F.modulus ∣ amount := by
  obtain ⟨inside, rfl⟩ := List.getElem?_eq_some_iff.1 found
  rw [← List.set_getElem_self inside, isValid_set_iff inside] at valid
  rw [isValid_set_iff inside, valid, cast_of_modEq added, add_right_inj, left_eq_add,
    ZMod.natCast_eq_zero_iff]

theorem isValid_set_a (valid : isValid F shares) (found : shares[i]? = some t) {a : Nat}
    (added : a ≡ t.a + amount [MOD F.modulus]) :
    isValid F (shares.set i { t with a }) ↔ F.modulus ∣ amount * (total F shares).b := by
  obtain ⟨inside, rfl⟩ := List.getElem?_eq_some_iff.1 found
  have factor := F.cast_sum_set (·.b) inside shares[i]
  rw [List.set_getElem_self] at factor
  rw [← List.set_getElem_self inside, isValid_set_iff inside] at valid
  rw [isValid_set_iff inside, ← valid, cast_of_modEq added, ← ZMod.natCast_eq_zero_iff,
    Nat.cast_mul, total, factor, ← add_assoc, add_mul, add_eq_left]

/-- Which changes to one share of a list leave it valid. The values need not be canonical. -/
structure TamperEvident (F : Field) (shares : List TripleShare) : Prop where
  c : ∀ i t, shares[i]? = some t → ∀ amount c, c ≡ t.c + amount [MOD F.modulus] →
    (isValid F (shares.set i { t with c }) ↔ F.modulus ∣ amount)
  a : ∀ i t, shares[i]? = some t → ∀ amount a, a ≡ t.a + amount [MOD F.modulus] →
    (isValid F (shares.set i { t with a }) ↔ F.modulus ∣ amount * (total F shares).b)
  a_of_prime : F.modulus.Prime → ¬ F.modulus ∣ (total F shares).b →
    ∀ i t, shares[i]? = some t → ∀ amount a, a ≡ t.a + amount [MOD F.modulus] →
      (isValid F (shares.set i { t with a }) ↔ F.modulus ∣ amount)

theorem tamperEvident_of_isValid (valid : isValid F shares) : TamperEvident F shares where
  c _ _ found _ _ added := isValid_set_c valid found added
  a _ _ found _ _ added := isValid_set_a valid found added
  a_of_prime prime nonzero _ _ found _ _ added := by
    rw [isValid_set_a valid found added, prime.dvd_mul, or_iff_left nonzero]

/-- Whatever is drawn, one canonical share per server of a valid triple is dealt; and an amount that
is added to one share of a valid triple shows unless it is a multiple of the modulus, in `c` always
and in `a` where the modulus is prime and the reconstructed `b` is not zero. -/
theorem deals_tamperEvident (F : Field) :
    (∀ servers, servers ≠ 0 → ∀ s : σ, ∃ triples s',
      (deal F servers).run.run s = (.ok triples, s') ∧ triples.length = servers ∧
        (∀ t ∈ triples, t.isCanonical F) ∧ isValid F triples) ∧
    ∀ shares, isValid F shares → TamperEvident F shares :=
  ⟨fun _ some s => deal_run some s, fun _ valid => tamperEvident_of_isValid valid⟩

/-- Five more in one `c`, three more in one `a`, and the modulus more in that `a`. -/
theorem deals_tamperEvident_seventeen :
    (∃ triples s', (deal .seventeen 3).run.run (ChaCha20.ofSeed 10) = (.ok triples, s') ∧
      triples.length = 3 ∧ (∀ t ∈ triples, t.isCanonical .seventeen) ∧
      isValid .seventeen triples) ∧
    isValid .seventeen [⟨3, 5, 4⟩, ⟨16, 9, 7⟩] ∧
    ¬ isValid .seventeen [⟨3, 5, 4⟩, ⟨16, 9, 12⟩] ∧
    ¬ isValid .seventeen [⟨3, 5, 4⟩, ⟨19, 9, 7⟩] ∧
    isValid .seventeen [⟨3, 5, 4⟩, ⟨33, 9, 7⟩] := by
  obtain ⟨deals, evident⟩ := deals_tamperEvident (σ := ChaCha20) .seventeen
  have valid : isValid .seventeen [⟨3, 5, 4⟩, ⟨16, 9, 7⟩] := by decide
  have shows := evident _ valid
  have nonzero : ¬ Field.seventeen.modulus ∣
      (total .seventeen [⟨3, 5, 4⟩, ⟨16, 9, 7⟩]).b := by decide
  have factor := shows.a_of_prime (Fact.out : Field.seventeen.modulus.Prime) nonzero
    1 ⟨16, 9, 7⟩ rfl
  refine ⟨deals 3 (by decide) _, valid, fun hidden => ?_, fun hidden => ?_, ?_⟩
  · exact absurd ((shows.c 1 ⟨16, 9, 7⟩ rfl 5 12 rfl).1 hidden) (by decide)
  · exact absurd ((factor 3 19 rfl).1 hidden) (by decide)
  · exact (factor 17 33 rfl).2 (by decide)

end Tampering

end PrivateSums.TripleShare
