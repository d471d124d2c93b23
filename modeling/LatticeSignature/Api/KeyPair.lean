import LatticeSignature.Api.Values
import LatticeSignature.Random.SecretBytes
import LatticeSignature.Scheme.KeyGeneration

/-
  Making keys: from a given seed, or from a seed that a random
  source hands out.

  Main declarations:
    * `KeyPair`
    * `KeyPair.ofSeed`
    * `KeyPair.derive`
    * `KeyPair.generate`
    * `SecretKey.publicKey`
-/

------------------------------------------------------------
-- Key Pairs
------------------------------------------------------------

namespace LatticeSignature

/- A public key and its secret key. -/
structure KeyPair where
  publicKey : PublicKey
  secretKey : SecretKey
deriving DecidableEq

namespace KeyPair

/- The keys of packed keys. -/
def ofPacked
    (packed : Scheme.KeyPairBytes) : KeyPair :=
  ⟨⟨packed.publicKey⟩, ⟨packed.secretKey⟩⟩

/- The keys of a seed of 32 bytes. -/
def ofSeed
    (p : ParameterSet)
    (b : Backend)
    (seed : Seed) : Report ApiError KeyPair :=
  (Scheme.generate p b seed).mapOutcome fun r =>
    ofPacked <$> ApiError.lift r

/- The keys of a seed whose size is checked. -/
def derive
    (p : ParameterSet)
    (b : Backend)
    (seed : Bytes) : Report ApiError KeyPair :=
  if hSize : seed.length = 32 then
    ofSeed p b ⟨seed.toArray, by simpa using hSize⟩
  else
    .silent
      (Outcome.fail
        (.invalidLength "ML-DSA seed" seedBytes seed.length))

/- The keys of a seed from a random source. -/
def generate
    (p : ParameterSet)
    (b : Backend)
    (source : RandomSource) : Report ApiError KeyPair :=
  match SecretBytes.draw 32 source with
  | .ok (seed, _) => ofSeed p b seed.bytes
  | .error stop => .silent (.error stop)

end KeyPair

/- The public key that belongs to a secret key. -/
def SecretKey.publicKey
    (p : ParameterSet)
    (b : Backend)
    (key : SecretKey) : Outcome ApiError PublicKey :=
  PublicKey.mk <$>
    ApiError.lift (Scheme.publicKeyOfSecret p b key.bytes)

end LatticeSignature
