/-!
# Bytes as bits

Bits are counted from the most significant one.  A string of bits is packed eight to a byte, the last
byte being filled up with zeros, and every string of whole bytes is the packing of its bits.
-/

namespace WordStream.Bits

/-- Bit `i` of a byte, where bit `0` is the most significant one. -/
def bitAt (byte : UInt8) (i : Nat) : Bool := byte.toNat.testBit (7 - i)

/-- The eight bits of a byte. -/
def ofByte (byte : UInt8) : List Bool := (List.range 8).map (bitAt byte)

/-- The bits of bytes, one byte after the other. -/
def ofBytes (bytes : List UInt8) : List Bool := bytes.flatMap ofByte

/-- The byte whose bits start with the given ones and are zero after them. -/
def toByte (bits : List Bool) : UInt8 :=
  UInt8.ofNat ((List.range 8).foldl (fun total i => 2 * total + (bits.getD i false).toNat) 0)

/-- The bytes whose bits start with the given ones, and are zero after them in the last byte. -/
def pack : List Bool → List UInt8
  | [] => []
  | bit :: rest => toByte (bit :: rest) :: pack (rest.drop 7)
termination_by bits => bits.length
decreasing_by
  simp only [List.length_drop, List.length_cons]
  omega

@[simp] theorem length_ofByte (byte : UInt8) : (ofByte byte).length = 8 := by
  simp [ofByte]

@[simp] theorem ofBytes_nil : ofBytes [] = [] := rfl

@[simp] theorem ofBytes_cons (byte : UInt8) (bytes : List UInt8) :
    ofBytes (byte :: bytes) = ofByte byte ++ ofBytes bytes := rfl

@[simp] theorem length_ofBytes (bytes : List UInt8) :
    (ofBytes bytes).length = 8 * bytes.length := by
  induction bytes with
  | nil => rfl
  | cons byte bytes ih =>
      rw [ofBytes_cons, List.length_append, length_ofByte, ih, List.length_cons]
      omega

theorem length_pack (bits : List Bool) : (pack bits).length = (bits.length + 7) / 8 := by
  fun_induction pack bits with
  | case1 => rfl
  | case2 bit rest ih =>
      simp only [List.length_cons, List.length_drop] at *
      omega

end WordStream.Bits
