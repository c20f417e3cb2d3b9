import LedgerLens.Bn254
import LedgerLens.Proofs.ZkVerifierWords

/-!
# Field elements and points of the verifier contract

`Fq`, `Fr` and `Point` of `contracts/zk_verifier/src/curve.rs`. Coordinates live
modulo `FIELD_MODULUS`, scalars modulo `CURVE_ORDER`, points are Jacobian triples.
-/
namespace ZkVerifierCurve

open ByteStrings ZkVerifierWords

def FIELD_MODULUS : U256 :=
  ⟨0x3c208c16d87cfd47, 0x97816a916871ca8d, 0xb85045b68181585d, 0x30644e72e131a029⟩

def CURVE_ORDER : U256 :=
  ⟨0x43e1f593f0000001, 0x2833e84879b97091, 0xb85045b68181585d, 0x30644e72e131a029⟩

theorem FIELD_MODULUS_toNat : FIELD_MODULUS.toNat = Bn254.fieldModulus := by decide

structure Fq where
  val : U256
  deriving DecidableEq, Repr

namespace Fq

def zero : Fq := ⟨.ZERO⟩
def one : Fq := ⟨.ONE⟩
def fromU64 (v : UInt64) : Fq := ⟨(U256.fromU64 v).rem FIELD_MODULUS⟩
def fromBeBytes (b : BytesN 32) : Fq := ⟨(U256.fromBeBytes b).rem FIELD_MODULUS⟩
def toBeBytes (a : Fq) : BytesN 32 := a.val.toBeBytes
def isZero (a : Fq) : Bool := a.val.isZero
def add (a b : Fq) : Fq := ⟨addMod a.val b.val FIELD_MODULUS⟩
def sub (a b : Fq) : Fq := ⟨subMod a.val b.val FIELD_MODULUS⟩
def mul (a b : Fq) : Fq := ⟨mulMod a.val b.val FIELD_MODULUS⟩
def neg (a : Fq) : Fq := if a.isZero then zero else ⟨subMod FIELD_MODULUS a.val FIELD_MODULUS⟩
def square (a : Fq) : Fq := a.mul a
def invert (a : Fq) : Fq := ⟨invMod a.val FIELD_MODULUS⟩
def isValid (a : Fq) : Bool := a.val.ltb FIELD_MODULUS

end Fq

structure Fr where
  val : U256
  deriving DecidableEq, Repr

namespace Fr

def fromU64 (v : UInt64) : Fr := ⟨(U256.fromU64 v).rem CURVE_ORDER⟩
def fromBeBytes (b : BytesN 32) : Fr := ⟨(U256.fromBeBytes b).rem CURVE_ORDER⟩
def add (a b : Fr) : Fr := ⟨addMod a.val b.val CURVE_ORDER⟩
def eq (a b : Fr) : Bool := a.val == b.val

end Fr

structure Point where
  x : Fq
  y : Fq
  z : Fq
  deriving DecidableEq, Repr

namespace Point

def isInfinity (p : Point) : Bool := p.z.isZero

def isValid (p : Point) : Bool := p.x.isValid && p.y.isValid && p.z.isValid

def infinity : Point := ⟨.one, .one, .zero⟩

def generator : Point := ⟨.one, .fromU64 2, .one⟩

/-- Only coordinates on `y² = x³ + 3` become a point. -/
def fromAffineChecked (x y : Fq) : Option Point :=
  if y.square = (x.square.mul x).add (.fromU64 3) then some ⟨x, y, .one⟩ else none

def neg (p : Point) : Point := if p.isInfinity then p else ⟨p.x, p.y.neg, p.z⟩

def double (p : Point) : Point :=
  if p.isInfinity || p.y.isZero then infinity
  else
    let a := p.x.square
    let b := p.y.square
    let c := b.square
    let x1b := p.x.add b
    let d := (x1b.square.sub a).sub c
    let d := d.add d
    let e := (a.add a).add a
    let f := e.square
    let x3 := (f.sub d).sub d
    let eightC := ((c.add c).add c).add c
    let eightC := eightC.add eightC
    let y3 := (e.mul (d.sub x3)).sub eightC
    let z3 := p.y.mul p.z
    let z3 := z3.add z3
    ⟨x3, y3, z3⟩

def add (p q : Point) : Point :=
  if p.isInfinity then q
  else if q.isInfinity then p
  else
    let z1z1 := p.z.square
    let z2z2 := q.z.square
    let u1 := p.x.mul z2z2
    let u2 := q.x.mul z1z1
    let s1 := (p.y.mul q.z).mul z2z2
    let s2 := (q.y.mul p.z).mul z1z1
    let h := u2.sub u1
    let r := s2.sub s1
    if h.isZero then
      if r.isZero then p.double else infinity
    else
      let i := (h.add h).square
      let j := h.mul i
      let r2 := r.add r
      let v := u1.mul i
      let x3 := ((r2.square.sub j).sub v).sub v
      let twoS1J := (s1.mul j).add (s1.mul j)
      let y3 := (r2.mul (v.sub x3)).sub twoS1J
      let z1z2 := ((p.z.add q.z).square.sub z1z1).sub z2z2
      let z3 := z1z2.mul h
      ⟨x3, y3, z3⟩

def mulScalar (p : Point) (k : Fr) : Point :=
  (List.range k.val.bitLength).reverse.foldl (fun acc i =>
    if k.val.bit i then acc.double.add p else acc.double) infinity

def toAffine (p : Point) : Fq × Fq :=
  if p.isInfinity then (.zero, .zero)
  else
    let zInv := p.z.invert
    let zInv2 := zInv.square
    let zInv3 := zInv2.mul zInv
    (p.x.mul zInv2, p.y.mul zInv3)

def eq (p q : Point) : Bool :=
  if p.isInfinity && q.isInfinity then true
  else if p.isInfinity != q.isInfinity then false
  else
    let z1z1 := p.z.square
    let z2z2 := q.z.square
    if p.x.mul z2z2 ≠ q.x.mul z1z1 then false
    else decide (p.y.mul (z2z2.mul q.z) = q.y.mul (z1z1.mul p.z))

/-- `H`, from the digest of the label. -/
def hGenerator (sha256 : List UInt8 → BytesN 32) : Point :=
  generator.mulScalar (.fromBeBytes (sha256 "LedgerLens ZK Generator H".toUTF8.toList))

end Point

theorem fieldModulus_bounds :
    0 < FIELD_MODULUS.toNat ∧ FIELD_MODULUS.toNat < 2 ^ 255 := by
  rw [FIELD_MODULUS_toNat]
  norm_num

theorem fromBeBytes_isValid (b : BytesN 32) : (Fq.fromBeBytes b).isValid = true := by
  have h := U256.rem_spec (U256.fromBeBytes b) fieldModulus_bounds.1 fieldModulus_bounds.2
  rw [Fq.isValid, U256.ltb_iff, Fq.fromBeBytes, h]
  exact Nat.mod_lt _ fieldModulus_bounds.1

theorem fromBeBytes_ofNat (v : UInt64) :
    Fq.fromBeBytes (.ofNat 32 v.toNat) = Fq.fromU64 v := by
  have hv := v.toNat_lt
  have h : U256.fromBeBytes (.ofNat 32 v.toNat) = U256.fromU64 v := by
    apply U256.toNat_inj
    rw [U256.fromBeBytes_toNat, BytesN.ofNat, ofBigEndian_toBigEndian _ _ (by omega),
      U256.toNat_eq]
    simp [U256.fromU64]
  rw [Fq.fromBeBytes, h, Fq.fromU64]

end ZkVerifierCurve
