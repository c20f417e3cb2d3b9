import Mathlib.NumberTheory.LucasPrimality
import Mathlib.Data.Nat.Prime.Basic
import Mathlib.Data.Nat.BinaryRec
import Mathlib.Tactic.NormNum

/-!
# Lucas certificates

A chain of numbers, each with a primitive root and the factored predecessor. Every
factor is an earlier member of the chain, so one Boolean run certifies them all.
Powers are computed by squaring, which keeps the run small enough for the kernel.
-/
namespace LucasCertificate

/-- Square and multiply from the low bit; `fuel` bounds the bits of the exponent. -/
def powMod (m : ℕ) : ℕ → ℕ → ℕ → ℕ → ℕ
  | 0, _, _, acc => acc
  | fuel + 1, base, e, acc =>
    powMod m fuel (base * base % m) (e / 2) (if e % 2 = 1 then acc * base % m else acc)

theorem powMod_cast (m : ℕ) : ∀ fuel base e acc : ℕ, e < 2 ^ fuel →
    ((powMod m fuel base e acc : ℕ) : ZMod m) = acc * (base : ZMod m) ^ e := by
  intro fuel
  induction fuel with
  | zero =>
    intro base e acc he
    have : e = 0 := by simpa using he
    simp [powMod, this]
  | succ fuel ih =>
    intro base e acc he
    have half : e / 2 < 2 ^ fuel := by rw [pow_succ] at he; omega
    have split : e = 2 * (e / 2) + e % 2 := by omega
    rw [powMod, ih _ _ _ half]
    conv_rhs => rw [split, pow_add, pow_mul]
    rcases Nat.mod_two_eq_zero_or_one e with h | h
    · simp [h, sq]
    · simp [h, sq]; ring

/-- A run of `powMod` decides whether a power is one. -/
theorem pow_eq_one_iff {m base e : ℕ} (hm : 1 < m) (he : e < 2 ^ 256) :
    (base : ZMod m) ^ e = 1 ↔ powMod m 256 base e 1 % m = 1 := by
  have h := powMod_cast m 256 base e 1 he
  rw [Nat.cast_one, one_mul] at h
  rw [← h]
  constructor
  · intro h1
    have h2 := (ZMod.natCast_eq_natCast_iff' _ 1 m).mp (by simpa using h1)
    rwa [Nat.mod_eq_of_lt hm] at h2
  · intro h1
    rw [← ZMod.natCast_mod, h1, Nat.cast_one]

structure Entry where
  prime : ℕ
  root : ℕ
  factors : List (ℕ × ℕ)

/-- The exponents stay below `2 ^ 256`, the width of every modulus certified here. -/
def Entry.power (c : Entry) (e : ℕ) : ℕ := powMod c.prime 256 c.root e 1 % c.prime

def Entry.Valid (known : List ℕ) (c : Entry) : Prop :=
  1 < c.prime ∧ c.prime < 2 ^ 256 ∧
    (c.factors.map fun f => f.1 ^ f.2).prod = c.prime - 1 ∧
    c.power (c.prime - 1) = 1 ∧
    ∀ f ∈ c.factors, f.1 ∈ known ∧ c.power ((c.prime - 1) / f.1) ≠ 1

instance (known : List ℕ) (c : Entry) : Decidable (c.Valid known) :=
  inferInstanceAs (Decidable (_ ∧ _ ∧ _ ∧ _ ∧ _))

def ChainValid : List ℕ → List Entry → Prop
  | _, [] => True
  | known, c :: cs => c.Valid known ∧ ChainValid (c.prime :: known) cs

instance decidableChainValid : (known : List ℕ) → (cs : List Entry) →
    Decidable (ChainValid known cs)
  | _, [] => isTrue trivial
  | known, c :: cs =>
    have := decidableChainValid (c.prime :: known) cs
    inferInstanceAs (Decidable (c.Valid known ∧ _))

theorem entry_prime {known : List ℕ} {c : Entry} (hk : ∀ q ∈ known, q.Prime)
    (hc : c.Valid known) : c.prime.Prime := by
  obtain ⟨hone, hwidth, hprod, hfull, hfactor⟩ := hc
  apply lucas_primality c.prime (c.root : ZMod c.prime)
  · exact (pow_eq_one_iff hone (by omega)).mpr hfull
  · intro q hq hdvd hpow
    obtain ⟨_, hm, hqm⟩ := (Prime.dvd_prod_iff hq.prime).mp (hprod ▸ hdvd)
    obtain ⟨f, hf, rfl⟩ := List.mem_map.mp hm
    have hqf : q = f.1 := (Nat.prime_dvd_prime_iff_eq hq (hk _ (hfactor f hf).1)).mp
      (hq.dvd_of_dvd_pow hqm)
    subst hqf
    have hlt := Nat.div_le_self (c.prime - 1) f.1
    exact (hfactor f hf).2 ((pow_eq_one_iff hone (by omega)).mp hpow)

/-- Induction along the chain: the primes certified so far are what the next entry may use. -/
theorem chain_prime {cs : List Entry} {known : List ℕ} (hk : ∀ q ∈ known, q.Prime)
    (h : ChainValid known cs) : ∀ p ∈ cs.map Entry.prime, p.Prime := by
  induction cs generalizing known with
  | nil => intro p hp; cases hp
  | cons c cs ih =>
    have hc := entry_prime hk h.1
    have hk' : ∀ q ∈ c.prime :: known, q.Prime := by
      intro q hq
      rcases List.mem_cons.mp hq with rfl | hq
      · exact hc
      · exact hk q hq
    intro p hp
    rcases List.mem_cons.mp hp with rfl | hp
    · exact hc
    · exact ih hk' h.2 p hp

end LucasCertificate
