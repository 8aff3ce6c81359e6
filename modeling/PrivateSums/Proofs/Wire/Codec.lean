import PrivateSums.Proofs.Answer
import PrivateSums.Wire.Codec

/-!
Bytes that a decoder takes off the front for a value, whatever follows them. Of such bytes no proper
beginning is enough: the decoder asks for more. Both pass from the parts of a value to the whole, so
that a type has them by the shape of its decoder.
-/

namespace PrivateSums.Wire

variable {α β : Type} {d : Decoder α} {xs ys : List UInt8} {a : α} {b : β}

/-- The decoder takes exactly these bytes for this value. -/
structure Reads (d : Decoder α) (bytes : List UInt8) (a : α) : Prop where
  whole : ∀ rest, d.run (bytes ++ rest) = .ok (a, rest)
  cut : ∀ part, part <+: bytes → part ≠ bytes → d.run part = .error .truncated

theorem reads_pure (a : α) : Reads (pure a) [] a where
  whole _ := rfl
  cut _ front proper := absurd (List.prefix_nil.1 front) proper

/-- The bytes of one value after those of another. -/
theorem Reads.bind {f : α → Decoder β} (first : Reads d xs a) (second : Reads (f a) ys b) :
    Reads (d >>= f) (xs ++ ys) b where
  whole rest := by
    rw [StateT.run_bind, List.append_assoc, first.whole, Answer.ok_bind]
    exact second.whole rest
  cut part front proper := by
    rw [StateT.run_bind]
    -- What is missing is missing of the first value or, after all of it, of the second.
    by_cases inside : part <+: xs ∧ part ≠ xs
    · rw [first.cut part inside.1 inside.2, Answer.error_bind]
    · obtain ⟨more, rfl⟩ : xs <+: part := by
        obtain shorter | longer := List.prefix_or_prefix_of_prefix front (List.prefix_append xs ys)
        · have eq : part = xs := by
            by_contra ne
            exact inside ⟨shorter, ne⟩
          exact eq ▸ List.prefix_rfl
        · exact longer
      rw [first.whole, Answer.ok_bind]
      apply second.cut
      · exact (List.prefix_append_right_inj xs).1 front
      · rintro rfl
        exact proper rfl

theorem Reads.map {f : α → β} (h : Reads d xs a) : Reads (do return f (← d)) xs (f a) := by
  have all := h.bind (f := fun a => pure (f a)) (reads_pure (f a))
  rwa [List.append_nil] at all

theorem reads_takeBytes (bytes : List UInt8) : Reads (takeBytes bytes.length) bytes bytes := by
  induction bytes with
  | nil => exact reads_pure []
  | cons byte bytes ih =>
    have step (rest : List UInt8) : (takeBytes (bytes.length + 1)).run (byte :: rest) =
        (do return byte :: (← takeBytes bytes.length) : Decoder (List UInt8)).run rest := rfl
    constructor
    case whole =>
      intro rest
      rw [List.cons_append, List.length_cons, step]
      exact ih.map.whole rest
    case cut =>
      intro part front proper
      cases part with
      | nil => rfl
      | cons other part =>
        obtain ⟨rfl, shorter⟩ := List.cons_prefix_cons.1 front
        rw [List.length_cons, step]
        exact ih.map.cut part shorter fun eq => proper (eq ▸ rfl)

section Numbers

variable {width n : Nat}

theorem length_bytesOf : (bytesOf width n).length = width := by
  induction width generalizing n with
  | zero => rfl
  | succ width ih => rw [bytesOf, List.length_cons, ih]

theorem numberOf_bytesOf (lt : n < 256 ^ width) : numberOf (bytesOf width n) = n := by
  induction width generalizing n with
  | zero => simpa [bytesOf, numberOf, eq_comm] using lt
  | succ width ih =>
    have low : (n % 256).toUInt8.toNat = n % 256 := by simp
    have high : n / 256 < 256 ^ width := by
      rw [Nat.div_lt_iff_lt_mul (by decide)]
      exact lt
    rw [bytesOf, numberOf, ih high, low, Nat.mod_add_div]

variable (width) in
theorem reads_number (lt : n < 256 ^ width) : Reads (number width) (bytesOf width n) n := by
  have bytes := reads_takeBytes (bytesOf width n)
  rw [length_bytesOf] at bytes
  have all := bytes.map (f := numberOf)
  rwa [numberOf_bytesOf lt] at all

end Numbers

/-- Values in which every list has at most as many items as its length field can tell. -/
class Sized (α : Type) where
  Fits : α → Prop := fun _ => True

export Sized (Fits)

/-- Types whose values are read back from their bytes. -/
class Lawful (α : Type) [Wire α] [Sized α] : Prop where
  reads : ∀ a : α, Fits a → Reads decode (encode a) a

export Lawful (reads)

instance : Sized UInt32 where

instance : Lawful UInt32 where
  reads n _ := by
    have all := (reads_number 4 n.toNat_lt).map (f := Nat.toUInt32)
    rwa [Nat.toUInt32_eq, UInt32.ofNat_toNat] at all

instance : Sized UInt64 where

instance : Lawful UInt64 where
  reads n _ := by
    have all := (reads_number 8 n.toNat_lt).map (f := Nat.toUInt64)
    rwa [Nat.toUInt64_eq, UInt64.ofNat_toNat] at all

instance : Sized Bool where

instance : Lawful Bool where
  reads truth _ := by
    cases truth with
    | false => exact (reads_number 1 (n := 0) (by decide)).bind (reads_pure false)
    | true => exact (reads_number 1 (n := 1) (by decide)).bind (reads_pure true)

instance : Sized Key where

instance : Lawful Key where
  reads key _ := by
    have bytes := reads_takeBytes key.bytes.toList
    rw [Vector.length_toList] at bytes
    have all := bytes.map (f := fun bytes => (⟨Vector.ofFn fun i => bytes.getD i 0⟩ : Key))
    have back : (Vector.ofFn fun i : Fin 32 => key.bytes.toList.getD i 0) = key.bytes :=
      Vector.ext fun i hi => by simp
    rwa [back] at all

section Containers

variable [Wire α] [Sized α] [Lawful α]

theorem reads_decodeMany {items : List α} (fits : ∀ a ∈ items, Fits a) :
    Reads (decodeMany items.length) (items.flatMap encode) items := by
  induction items with
  | nil => exact reads_pure []
  | cons a items ih =>
    obtain ⟨first, rest⟩ := List.forall_mem_cons.1 fits
    rw [List.flatMap_cons]
    exact (reads a first).bind (ih rest).map

instance : Sized (List α) where
  Fits items := items.length < UInt64.size ∧ ∀ a ∈ items, Fits a

instance : Lawful (List α) where
  reads items fits := by
    obtain ⟨short, each⟩ := fits
    have count : items.length.toUInt64.toNat = items.length := UInt64.toNat_ofNat_of_lt' short
    refine (reads items.length.toUInt64 trivial).bind ?_
    rw [count]
    exact reads_decodeMany each

instance : Sized (Option α) where
  Fits option := ∀ a ∈ option, Fits a

instance : Lawful (Option α) where
  reads option fits := by
    cases option with
    | none => exact (reads_number 1 (n := 0) (by decide)).bind (reads_pure none)
    | some a =>
      refine (reads_number 1 (n := 1) (by decide)).bind ?_
      exact (reads a (fits a rfl)).map

end Containers

theorem ofLimbs_limbsOf (n : Nat) : ofLimbs (limbsOf n) = n := by
  fun_induction limbsOf n with
  | case1 => rfl
  | case2 n _ ih =>
    have low : (n % UInt32.size).toUInt32.toNat = n % UInt32.size := by simp
    rw [ofLimbs, ih, low, Nat.mod_add_div]

instance : Sized Nat where
  Fits n := (limbsOf n).length < UInt64.size

instance : Lawful Nat where
  reads n fits := by
    have limbs : Fits (limbsOf n) := ⟨fits, fun _ _ => trivial⟩
    have all := (reads (limbsOf n) limbs).map (f := ofLimbs)
    rwa [ofLimbs_limbsOf] at all

theorem reads_index {alternatives : List β} [BEq β] [LawfulBEq β]
    (few : alternatives.length ≤ UInt32.size) (listed : b ∈ alternatives) :
    Reads (decodeIndex alternatives) (encodeIndex alternatives b) b := by
  have lt := List.idxOf_lt_length_of_mem listed
  have found : alternatives[alternatives.idxOf b]? = some b := by
    rw [List.getElem?_eq_getElem lt, List.getElem_idxOf]
  rw [← List.append_nil (encodeIndex alternatives b)]
  refine (reads_number 4 (Nat.lt_of_lt_of_le lt few)).bind ?_
  rw [found]
  exact reads_pure b

end PrivateSums.Wire
