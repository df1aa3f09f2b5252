import Mathlib.Algebra.Order.Ring.Nat
import Mathlib.Tactic.Ring
import Mathlib.Tactic.Linarith

/-!
# Little-endian words over byte functions

A memory is seen here as a function from byte offsets to bytes.  `leValue f n`
is the number stored in the first `n` bytes and `leByte v i` is byte `i` of the
encoding of `v`; the two are inverse to each other, which is all that the typed
views of a disk block or of a physical page need.
-/

namespace RCore.Lib.LittleEndian

/-- The value of the bytes `f 0, …, f (n - 1)`, least significant byte first. -/
def leValue (f : Nat → UInt8) : Nat → Nat
  | 0 => 0
  | n + 1 => (f 0).toNat + 256 * leValue (fun i => f (i + 1)) n

/-- Byte `i` of the little-endian encoding of `v`. -/
def leByte (v i : Nat) : UInt8 := UInt8.ofNat (v / 256 ^ i)

theorem leValue_congr {f g : Nat → UInt8} {n : Nat} (h : ∀ i < n, f i = g i) :
    leValue f n = leValue g n := by
  induction n generalizing f g with
  | zero => rfl
  | succ n ih =>
    simp only [leValue]
    rw [h 0 (by omega), ih (fun i hi => h (i + 1) (by omega))]

theorem leValue_lt (f : Nat → UInt8) (n : Nat) : leValue f n < 256 ^ n := by
  induction n generalizing f with
  | zero => simp [leValue]
  | succ n ih =>
    have hhead : (f 0).toNat < 256 := (f 0).toNat_lt
    have htail := ih (fun i => f (i + 1))
    simp only [leValue, pow_succ]
    omega

theorem leByte_zero (v : Nat) : leByte v 0 = UInt8.ofNat v := by
  simp [leByte]

theorem leByte_succ (v i : Nat) : leByte v (i + 1) = leByte (v / 256) i := by
  rw [leByte, leByte, Nat.div_div_eq_div_mul, pow_succ, Nat.mul_comm]

theorem leValue_leByte {v n : Nat} (h : v < 256 ^ n) : leValue (leByte v) n = v := by
  induction n generalizing v with
  | zero =>
    have hv : v = 0 := by simpa using h
    simp [leValue, hv]
  | succ n ih =>
    have hdiv : v / 256 < 256 ^ n := by
      rw [Nat.div_lt_iff_lt_mul (by omega), ← pow_succ]
      exact h
    have htail : leValue (fun i => leByte v (i + 1)) n = v / 256 := by
      simp only [leByte_succ]
      exact ih hdiv
    simp only [leValue, htail, leByte_zero, UInt8.toNat_ofNat']
    omega

theorem leByte_leValue (f : Nat → UInt8) {n i : Nat} (h : i < n) :
    leByte (leValue f n) i = f i := by
  induction n generalizing f i with
  | zero => omega
  | succ n ih =>
    have hhead : (f 0).toNat < 256 := (f 0).toNat_lt
    cases i with
    | zero =>
      rw [leByte_zero]
      apply UInt8.toNat.inj
      simp only [leValue, UInt8.toNat_ofNat']
      omega
    | succ i =>
      rw [leByte_succ]
      have hdiv : leValue f (n + 1) / 256 = leValue (fun i => f (i + 1)) n := by
        simp only [leValue]
        omega
      rw [hdiv]
      exact ih (fun i => f (i + 1)) (by omega)

theorem leValue_eq_zero {f : Nat → UInt8} {n : Nat} (h : ∀ i < n, f i = 0) :
    leValue f n = 0 := by
  rw [leValue_congr h]
  clear h
  induction n with
  | zero => rfl
  | succ n ih => simp [leValue, ih]

end RCore.Lib.LittleEndian
