import Mathlib.Tactic
import Mathlib.Tactic.DeriveEncodable

/-! Signing and hashing as `SignatureVerifier` uses them. The primitives come from
a third-party library and stay parameters; the key lookup, the empty checks and the
dispatch on the key type are the source's. -/
namespace ResDB

/-- A C++ byte string. -/
abbrev Bytes := List UInt8

instance lawfulBEqBytes : LawfulBEq Bytes := inferInstance

instance encodableByte : Encodable UInt8 :=
  Encodable.ofLeftInverse UInt8.toNat UInt8.ofNat (fun _ => UInt8.ofNat_toNat)

inductive HashType where
  | none
  | rsa
  | ed25519
  | cmacAes
  | ecdsa
  deriving DecidableEq, Encodable

structure SignatureInfo where
  hashType : HashType := .none
  nodeId : Int := 0
  signature : Bytes := []
  deriving DecidableEq, Encodable

structure KeyInfo where
  key : Bytes := []
  hashType : HashType := .none
  deriving DecidableEq

/-- The primitives and the keys of one deployment. A digest has `DIGESTSIZE` bytes,
which is part of the type and not an assumption about its callers. -/
structure Crypto where
  sha256 : Bytes → Bytes
  sha256_length : ∀ data, (sha256 data).length = 32
  verifyString : HashType → Bytes → Bytes → Bytes → Bool
  signString : HashType → Bytes → Bytes → Bytes
  keys : Int → Option KeyInfo
  privateKey : Int → KeyInfo

namespace Crypto
variable (c : Crypto)

theorem sha256_ne_nil (data : Bytes) : c.sha256 data ≠ [] := by
  intro empty
  have length := c.sha256_length data
  rw [empty] at length
  exact absurd length (by decide)

/-- `VerifyMessage` against an explicit key. A key without a hash type accepts
every non-empty signature. -/
def verifyWithKey (message : Bytes) (publicKey : KeyInfo) (signature : Bytes) : Bool :=
  if publicKey.key.isEmpty || signature.isEmpty then false
  else match publicKey.hashType with
    | .rsa | .ed25519 | .cmacAes | .ecdsa =>
        c.verifyString publicKey.hashType message publicKey.key signature
    | .none => true

/-- `VerifyMessage` looks the key up under the node id the signature itself carries. -/
def verifyMessage (message : Bytes) (info : SignatureInfo) : Bool :=
  if info.signature.isEmpty then false
  else match c.keys info.nodeId with
    | none => false
    | some publicKey => c.verifyWithKey message publicKey info.signature

/-- `SignMessage` of the node `nodeId`. It leaves the hash type of the result unset. -/
def signMessage (nodeId : Int) (message : Bytes) : SignatureInfo :=
  let key := c.privateKey nodeId
  { nodeId := nodeId
    signature := match key.hashType with
      | .rsa | .ed25519 | .cmacAes | .ecdsa => c.signString key.hashType key.key message
      | .none => [] }

/-- A small instance to run the model on: a digest keeps the first 32 bytes of the
data, padded with zeros, and a signature is the signer's one-byte key before the message. -/
def sample : Crypto where
  sha256 data := (data ++ List.replicate 32 0).take 32
  sha256_length data := by simp
  verifyString _ message key signature := signature = key ++ message
  signString _ key message := key ++ message
  keys nodeId := some ⟨[UInt8.ofNat nodeId.toNat], .ed25519⟩
  privateKey nodeId := ⟨[UInt8.ofNat nodeId.toNat], .ed25519⟩

end Crypto
end ResDB
