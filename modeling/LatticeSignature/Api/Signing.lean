import LatticeSignature.Api.Values
import LatticeSignature.Random.Source
import LatticeSignature.Scheme.Signing

/-
  Signing messages: without randomness, with bytes of a random
  source, and in front of the message itself.

  Main declarations:
    * `SecretKey.signWith`
    * `SecretKey.sign`
    * `SecretKey.signRandomized`
    * `SecretKey.signEmbedded`
-/

------------------------------------------------------------
-- Signing
------------------------------------------------------------

namespace LatticeSignature

namespace SecretKey

/- Sign with a given randomizer. -/
def signWith
    (p : ParameterSet)
    (b : Backend)
    (key : SecretKey)
    (message context : Bytes)
    (randomizer : Seed) : Report ApiError Signature :=
  (Scheme.sign p b key.bytes message context randomizer).mapOutcome
    fun r => Signature.mk <$> ApiError.lift r

/- Sign without randomness. -/
def sign
    (p : ParameterSet)
    (b : Backend)
    (key : SecretKey)
    (message context : Bytes) : Report ApiError Signature :=
  key.signWith p b message context (Vector.replicate 32 0)

/- Sign with bytes that a random source hands out first. -/
def signRandomized
    (p : ParameterSet)
    (b : Backend)
    (key : SecretKey)
    (message context : Bytes)
    (source : RandomSource) : Report ApiError Signature :=
  match source.fill 32 with
  | .ok (randomizer, _) =>
      key.signWith p b message context randomizer
  | .error reason =>
      .silent
        (Outcome.fail (.ofScheme (.randomness reason)))

/- Sign without randomness and append the message. -/
def signEmbedded
    (p : ParameterSet)
    (b : Backend)
    (key : SecretKey)
    (message context : Bytes) : Report ApiError Bytes :=
  (key.sign p b message context).mapOutcome fun r =>
    (fun signature => signature.bytes ++ message) <$> r

end SecretKey

end LatticeSignature
