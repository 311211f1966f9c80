import Mathlib.NumberTheory.LucasPrimality
import Mathlib.Tactic.NormNum.Prime
import ThresholdKeygen.Scalar

/-!
# The group order is prime

Powers modulo `m` by squaring agree with powers; with them, a primitive root and the prime factors
of `p - 1` certify that `p` is prime. Certificates climb from primes that are small enough for trial
division. Main statement: `groupOrder_prime`.
-/

namespace ThresholdKeygen

/-! ### Powers by squaring -/

theorem powMod_go_eq (m digits : Nat) {b e acc : Nat} (he : e < 2 ^ digits) (hacc : acc < m) :
    powMod.go m digits b e acc = acc * b ^ e % m := by
  induction digits generalizing b e acc with
  | zero =>
    obtain rfl : e = 0 := by simpa using he
    simp [powMod.go, Nat.mod_eq_of_lt hacc]
  | succ digits ih =>
    have hhalf : e / 2 < 2 ^ digits := by
      rw [pow_succ] at he
      omega
    have hsquare (c : Nat) : c * (b * b % m) ^ (e / 2) % m = c * b ^ (2 * (e / 2)) % m := by
      rw [Nat.mul_mod, ← Nat.pow_mod, ← Nat.mul_mod, pow_mul, sq]
    rw [powMod.go, ih hhalf (by split <;> first | exact Nat.mod_lt _ (by omega) | exact hacc),
      hsquare]
    split
    · rename_i hodd
      have he' : e = 2 * (e / 2) + 1 := by omega
      conv_rhs => rw [he', pow_succ', ← mul_assoc]
      rw [Nat.mod_mul_mod]
    · rename_i heven
      have he' : e = 2 * (e / 2) := by omega
      rw [← he']

theorem powMod_eq {m : Nat} (hm : 0 < m) (b e : Nat) : powMod m b e = b ^ e % m := by
  rcases Nat.lt_or_ge 1 m with h | h
  · rw [powMod, powMod_go_eq m _ Nat.lt_log2_self (Nat.mod_lt _ hm), Nat.mod_eq_of_lt h, one_mul,
      ← Nat.pow_mod]
  · obtain rfl : m = 1 := by omega
    have hone (digits b e : Nat) : powMod.go 1 digits b e 0 = 0 := by
      induction digits generalizing b e with
      | zero => rfl
      | succ digits ih => simp [powMod.go, Nat.mod_one, ih]
    simp [powMod, Nat.mod_one, hone]

/-! ### Certificates -/

/-- Whether `a` has order `p - 1` modulo `p`, given the prime factors of `p - 1`. -/
def isPrimitiveRoot (p a : Nat) (factors : List Nat) : Bool :=
  factors.prod == p - 1 && powMod p a (p - 1) == 1 &&
    factors.all fun r => powMod p a ((p - 1) / r) != 1

theorem natCast_pow_eq_one_iff {p : Nat} (hp : 1 < p) (a e : Nat) :
    (a : ZMod p) ^ e = 1 ↔ powMod p a e = 1 := by
  rw [powMod_eq (by omega), ← Nat.cast_pow, ← Nat.cast_one, ZMod.natCast_eq_natCast_iff',
    Nat.mod_eq_of_lt hp]

/-- Lucas' test. -/
theorem prime_of_isPrimitiveRoot {p : Nat} (a : Nat) (factors : List Nat) (hp : 1 < p)
    (hroot : isPrimitiveRoot p a factors = true) (hfactors : ∀ r ∈ factors, r.Prime) :
    p.Prime := by
  simp only [isPrimitiveRoot, Bool.and_eq_true, beq_iff_eq, List.all_eq_true, bne_iff_ne] at hroot
  obtain ⟨⟨hprod, hone⟩, hne⟩ := hroot
  apply lucas_primality p a ((natCast_pow_eq_one_iff hp a _).2 hone)
  intro r hr hdvd h
  obtain ⟨s, hs, hrs⟩ := (Prime.dvd_prod_iff hr.prime).1 (hprod ▸ hdvd)
  obtain rfl := (Nat.prime_dvd_prime_iff_eq hr (hfactors s hs)).1 hrs
  exact hne r hs ((natCast_pow_eq_one_iff hp a _).1 h)

/-- A number, a primitive root modulo it, and the prime factors of its predecessor. -/
structure PrimeCertificate where
  number : Nat
  root : Nat
  factors : List Nat

/-- Whether each number is certified by primes among the known ones and the numbers before it. -/
def areCertified (known : List Nat) : List PrimeCertificate → Bool
  | [] => true
  | c :: rest =>
    decide (1 < c.number) && isPrimitiveRoot c.number c.root c.factors &&
      c.factors.all (known.contains ·) && areCertified (c.number :: known) rest

theorem prime_of_areCertified {known : List Nat} {chain : List PrimeCertificate}
    (hknown : ∀ r ∈ known, r.Prime) (h : areCertified known chain = true) :
    ∀ p ∈ chain.map PrimeCertificate.number, p.Prime := by
  induction chain generalizing known with
  | nil => simp
  | cons c rest ih =>
    simp only [areCertified, Bool.and_eq_true, decide_eq_true_eq, List.all_eq_true,
      List.contains_iff_mem] at h
    obtain ⟨⟨⟨hlarge, hroot⟩, hfactors⟩, hrest⟩ := h
    have hprime : c.number.Prime :=
      prime_of_isPrimitiveRoot c.root c.factors hlarge hroot fun r hr => hknown r (hfactors r hr)
    exact List.forall_mem_cons.2 ⟨hprime, ih (List.forall_mem_cons.2 ⟨hprime, hknown⟩) hrest⟩

/-! ### The group order -/

/-- The primes at the bottom of the certificates for the group order. -/
def groupOrderPrimes : List Nat :=
  [2, 3, 11, 17, 41, 59, 109, 149, 293, 461, 631, 4051, 16699, 28181, 85831, 120233, 305873,
    1627771, 4681609, 44706919]

/-- Primes that certify each other, up to the group order. -/
def groupOrderChain : List PrimeCertificate :=
  [⟨107361793816595537, 3, [2, 2, 2, 2, 16699, 4681609, 85831]⟩,
    ⟨174723607534414371449, 3, [2, 2, 2, 17, 59, 4051, 120233, 44706919]⟩,
    ⟨297159362677, 2, [2, 2, 3, 3, 11, 461, 1627771]⟩,
    ⟨545358713, 5, [2, 2, 2, 41, 59, 28181]⟩,
    ⟨29047611873442575647497758179, 2, [2, 293, 305873, 545358713, 297159362677]⟩,
    ⟨341948486974166000522343609283189, 2,
      [2, 2, 3, 3, 3, 109, 29047611873442575647497758179]⟩,
    ⟨groupOrder, 7, [2, 2, 2, 2, 2, 2, 3, 149, 631, 107361793816595537, 174723607534414371449,
      341948486974166000522343609283189]⟩]

theorem groupOrder_prime : Nat.Prime groupOrder := by
  have hknown : ∀ r ∈ groupOrderPrimes, r.Prime := by norm_num [groupOrderPrimes]
  have hcertified : areCertified groupOrderPrimes groupOrderChain = true := by decide +kernel
  exact prime_of_areCertified hknown hcertified groupOrder (by simp [groupOrderChain])

instance : Fact groupOrder.Prime := ⟨groupOrder_prime⟩

end ThresholdKeygen
