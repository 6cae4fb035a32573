import Orochimaru.Libecvrf.Ecvrf

/-!
# Key pairs

A secret key with its public key, and the bytes of both. A key is read back from its bytes.
-/

namespace Libecvrf

open Zkmemory

namespace SecretKey

def serialize (sk : SecretKey) : Bytes 32 := (Uint.ofNat sk.val.val : Uint 32).toBeBytes

/-- Neither zero nor an overflow. -/
def parse (p : Bytes 32) : Option SecretKey :=
  let elem : Scalar := ((Uint.fromBeBytes p).val : Scalar)
  if h : elem ≠ 0 then
    if (Uint.fromBeBytes p).val < groupOrder then some ⟨elem, h⟩ else none
  else none

theorem serialize_val (sk : SecretKey) :
    (Uint.fromBeBytes sk.serialize).val = (sk : Scalar).val := by
  have hlt : (sk : Scalar).val < 256 ^ 32 := (ZMod.val_lt _).trans (by norm_num [groupOrder])
  rw [serialize, Uint.fromBeBytes_toBeBytes, Uint.ofNat_val hlt]

theorem parse_serialize (sk : SecretKey) : parse sk.serialize = some sk := by
  have helem : ((Uint.fromBeBytes sk.serialize).val : Scalar) = sk := by
    rw [serialize_val, ZMod.natCast_zmod_val]
  have hlt : (Uint.fromBeBytes sk.serialize).val < groupOrder := by
    rw [serialize_val]
    exact ZMod.val_lt _
  rw [parse, dif_pos (helem ▸ sk.property), if_pos hlt]
  exact congrArg some (Subtype.ext helem)

end SecretKey

structure KeyPair where
  publicKey : Affine
  secretKey : SecretKey

structure RawKeyPair where
  publicKey : List Byte
  secretKey : List Byte

namespace KeyPair

/-- `KeyPair::from` of a secret key. -/
def ofSecretKey (value : SecretKey) : KeyPair := ⟨ecmultGen value, value⟩

/-- `KeyPair::from` of bytes, none where they are no secret key. -/
def ofBytes (value : Bytes 32) : Option KeyPair := (SecretKey.parse value).map ofSecretKey

/-- A tag in front of the two coordinates. -/
def serializePublic (publicKey : Affine) : List Byte := 4 :: publicKey.b32

def toRaw (value : KeyPair) : RawKeyPair :=
  ⟨serializePublic value.publicKey, List.ofFn value.secretKey.serialize⟩

end KeyPair

end Libecvrf
