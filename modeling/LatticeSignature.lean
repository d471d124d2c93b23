import LatticeSignature.Indexing
import LatticeSignature.Outcome
import LatticeSignature.Word
import LatticeSignature.Bytes
import LatticeSignature.Bits
import LatticeSignature.ParameterSet
import LatticeSignature.Error.Api
import LatticeSignature.Field.Reduction
import LatticeSignature.Field.Roots
import LatticeSignature.Rounding.Hint
import LatticeSignature.Ring.Packing
import LatticeSignature.Ring.PolyVec
import LatticeSignature.Keccak.Xof
import LatticeSignature.Stream.Backend
import LatticeSignature.Random.Generator
import LatticeSignature.Random.SecretBytes
import LatticeSignature.Sampling.Challenge
import LatticeSignature.Sampling.Expansion
import LatticeSignature.Encoding.Keys
import LatticeSignature.Encoding.Signature
import LatticeSignature.Scheme.KeyGeneration
import LatticeSignature.Scheme.Verification
import LatticeSignature.Api.KeyPair
import LatticeSignature.Api.Signing
import LatticeSignature.Api.Verification
import LatticeSignature.Proofs.Ring.Products
import LatticeSignature.Proofs.Ring.TransformLaws
import LatticeSignature.Proofs.Encoding.PackingLaws
import LatticeSignature.Proofs.Rounding.Vectors
import LatticeSignature.Proofs.Encoding.Signature
import LatticeSignature.Proofs.Encoding.HintSection
import LatticeSignature.Proofs.Encoding.SignatureFormat
import LatticeSignature.Proofs.Encoding.Bounds
import LatticeSignature.Proofs.Ring.Bounds
import LatticeSignature.Proofs.Encoding.Keys
import LatticeSignature.Proofs.Encoding.KeyFormat
import LatticeSignature.Proofs.Encoding.Sections
import LatticeSignature.Proofs.Sampling.Challenge
import LatticeSignature.Proofs.Sampling.Ranges
import LatticeSignature.Proofs.Sampling.Bounds
import LatticeSignature.Proofs.Scheme.KeyGeneration
import LatticeSignature.Proofs.Scheme.Verification
import LatticeSignature.Proofs.Scheme.Signing
import LatticeSignature.Proofs.Scheme.SigningErrors
import LatticeSignature.Proofs.Scheme.Completeness
import LatticeSignature.Proofs.Scheme.KeySafety
import LatticeSignature.Proofs.Scheme.VerificationSafety
import LatticeSignature.Proofs.Api.Decoders
import LatticeSignature.Proofs.Keccak.Xof
import LatticeSignature.Proofs.Scheme.HintBinding
import LatticeSignature.Proofs.Scheme.MaskNonces
import LatticeSignature.Proofs.Scheme.DerivedKey
import LatticeSignature.Proofs.Random.Generator
import LatticeSignature.Proofs.Scheme.Framing
import LatticeSignature.Proofs.Api.Backends
import LatticeSignature.Proofs.Rounding.Masks
import LatticeSignature.Proofs.Scheme.LowPartCheck
import LatticeSignature.Proofs.Scheme.ExactProducts
import LatticeSignature.Proofs.Sampling.Masks
import LatticeSignature.Proofs.Api.KeyErrors
import LatticeSignature.Proofs.Field.Limits
