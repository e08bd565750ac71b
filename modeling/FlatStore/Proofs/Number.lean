import FlatStore.Scalar
import Mathlib.Algebra.Group.Nat.Defs

/-!
Numbers that documents and stores exchange. A whole number of 64 bits is never too large for a float
(`Binary64.ofInt_finite`), so that every scalar that is read from a document is written back as one, and is read again
as the same scalar (`Scalar.ofJsonAs?_toJson`).
-/
namespace FlatStore

/-! ### Floats of whole numbers -/

theorem roundHalfEven_le (num den : Nat) : roundHalfEven num den ≤ num / den + 1 := by
  unfold roundHalfEven
  dsimp only
  have parity : num / den % 2 < 2 := Nat.mod_lt _ (by decide)
  split
  · omega
  · split <;> omega

/-- The significand of a rounded number has at most 54 bits. -/
private theorem significand_le {n : Nat} {scale : Int} (least : (n.log2 : Int) - 53 ≤ scale) :
    (if 0 ≤ scale then roundHalfEven n (1 * twoTo scale.toNat) else roundHalfEven (n * twoTo (-scale).toNat) 1) ≤
      2 ^ 54 := by
  have bits : n < 2 ^ (n.log2 + 1) := Nat.lt_log2_self
  split
  · next sign =>
    have power : 2 ^ (n.log2 + 1) ≤ 2 ^ 54 * twoTo scale.toNat := by
      change _ ≤ 2 ^ 54 * 2 ^ scale.toNat
      rw [← Nat.pow_add]
      exact Nat.pow_le_pow_right (by decide) (by omega)
    have quotient : n / (1 * twoTo scale.toNat) < 2 ^ 54 := by
      rw [Nat.one_mul]
      exact Nat.div_lt_of_lt_mul (by rw [Nat.mul_comm]; omega)
    have rounded := roundHalfEven_le n (1 * twoTo scale.toNat)
    omega
  · next sign =>
    have power : 2 ^ (n.log2 + 1) * twoTo (-scale).toNat ≤ 2 ^ 54 := by
      change 2 ^ (n.log2 + 1) * 2 ^ (-scale).toNat ≤ 2 ^ 54
      rw [← Nat.pow_add]
      exact Nat.pow_le_pow_right (by decide) (by omega)
    have product : n * twoTo (-scale).toNat < 2 ^ 54 := by
      have positive : 0 < twoTo (-scale).toNat := Nat.pow_pos (by decide)
      exact Nat.lt_of_lt_of_le (Nat.mul_lt_mul_of_pos_right bits positive) power
    have rounded := roundHalfEven_le (n * twoTo (-scale).toNat) 1
    rw [Nat.div_one] at rounded
    omega

/-- No whole number of 64 bits is rounded to infinity. -/
theorem nearestWord_lt {n : Nat} (small : n < 2 ^ 64) : nearestWord n 1 < infinityWord := by
  unfold nearestWord
  split
  · decide
  · next some =>
    dsimp only
    have bits : n.log2 < 64 := (Nat.log2_lt some).2 small
    have one : Nat.log2 1 = 0 := rfl
    have bounded : ∀ scale : Int, (n.log2 : Int) - 53 ≤ scale → scale ≤ 11 →
        wordOf (if 0 ≤ scale then roundHalfEven n (1 * twoTo scale.toNat)
          else roundHalfEven (n * twoTo (-scale).toNat) 1) scale < infinityWord := by
      intro scale least most
      have significand := significand_le least
      unfold wordOf infinityWord wordsPerExponent
      omega
    have least : ∀ large : Bool, (n.log2 : Int) - 53 ≤
        max (if large = true then (n.log2 : Int) - Nat.log2 1 - 53 + 1 else (n.log2 : Int) - Nat.log2 1 - 53) (-1074) := by
      intro large
      cases large <;> simp only [one] <;> omega
    have most : ∀ large : Bool,
        max (if large = true then (n.log2 : Int) - Nat.log2 1 - 53 + 1 else (n.log2 : Int) - Nat.log2 1 - 53) (-1074) ≤
          11 := by
      intro large
      cases large <;> simp only [one] <;> omega
    exact bounded _ (least _) (most _)

theorem Binary64.ofInt_finite (n : Whole) : ∃ x, Binary64.ofInt n.val = .finite x := by
  have small : n.val.natAbs < 2 ^ 64 := by
    have least := n.least
    have most := n.most
    omega
  unfold Binary64.ofInt Binary64.ofRatio Binary64.ofWord
  rw [dif_pos (nearestWord_lt small)]
  exact ⟨_, rfl⟩

/-! ### Scalars of documents -/

namespace Scalar

variable {kind : ScalarKind} {value : Json} {leaf : Scalar}

theorem toInt64?_ofInt64 (n : Int64) : (Whole.ofInt64 n).toInt64? = some n := by
  have most := n.toInt_lt
  rw [Whole.toInt64?, if_pos (by simpa [Whole.ofInt64] using most)]
  exact congrArg some n.ofInt_toInt

theorem ofJsonAs?_toJson (read : ofJsonAs? kind value = some leaf) : ofJsonAs? kind leaf.toJson = some leaf := by
  unfold ofJsonAs? at read
  split at read
  · cases read
    rfl
  · cases read
    rfl
  · obtain ⟨n, -, rfl⟩ := Option.map_eq_some_iff.1 read
    change (Whole.ofInt64 n).toInt64?.map Scalar.int = some (Scalar.int n)
    rw [toInt64?_ofInt64, Option.map_some]
  · next n =>
    cases read
    obtain ⟨x, finite⟩ := Binary64.ofInt_finite n
    rw [finite]
    rfl
  · cases read
    rfl
  · cases read

theorem toJson_ne_null (read : ofJsonAs? kind value = some leaf) : leaf.toJson ≠ .null := by
  intro null
  have again := ofJsonAs?_toJson read
  rw [null] at again
  cases kind <;> cases again

/-- All scalars but floats are written back as they were read. -/
theorem toJson_of_ofJsonAs? (read : ofJsonAs? kind value = some leaf) (exact_kind : kind ≠ .float) :
    leaf.toJson = value := by
  unfold ofJsonAs? at read
  split at read
  · cases read
    rfl
  · cases read
    rfl
  · next n =>
    obtain ⟨m, fits, rfl⟩ := Option.map_eq_some_iff.1 read
    unfold Whole.toInt64? at fits
    split at fits
    · next small =>
      cases fits
      have least := n.least
      have same : (Int64.ofInt n.val).toInt = n.val := Int64.toInt_ofInt_of_le (by omega) (by omega)
      simp only [toJson, Whole.ofInt64, same]
    · cases fits
  · exact absurd rfl exact_kind
  · exact absurd rfl exact_kind
  · cases read

end Scalar
end FlatStore
