namespace BlockStore.LittleEndian

/-- The `width` lowest bytes of `n`, least significant first. -/
def encode : Nat → Nat → List UInt8
  | 0, _ => []
  | width + 1, n => n.toUInt8 :: encode width (n / 256)

def decode : List UInt8 → Nat
  | [] => 0
  | b :: bs => b.toNat + 256 * decode bs

/-- The number held by the `width` bytes of a record from `pos` on. -/
def field (record : List UInt8) (pos width : Nat) : Nat := decode ((record.drop pos).take width)

theorem length_encode (width n : Nat) : (encode width n).length = width := by
  induction width generalizing n with
  | zero => rfl
  | succ width ih => simp [encode, ih]

theorem encode_decode (bytes : List UInt8) : encode bytes.length (decode bytes) = bytes := by
  induction bytes with
  | nil => rfl
  | cons b bs ih =>
      have := b.toNat_lt
      have hrest : (b.toNat + 256 * decode bs) / 256 = decode bs := by omega
      have hlow : (b.toNat + 256 * decode bs).toUInt8 = b := by
        apply UInt8.toNat_inj.1
        simp
      simp [decode, encode, hrest, hlow, ih]

end BlockStore.LittleEndian
