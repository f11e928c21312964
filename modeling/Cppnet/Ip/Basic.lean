import Cppnet.Util.StringUtil

/-!
# IP addresses

`ipv4_addr.cpp`, `ipv6_addr.cpp` and `ip_addr.cpp`: addresses and their texts. The bytes of an address are
in the opposite order of the parts of its text.

A result is `none` where what the code does is undefined: a store outside of the parts of an address, or a
text that does not fit into the buffer it is written to.
-/

namespace Cppnet

open Util

/-! ## Parts -/

/-- The loop of `parse`, over the parts of the text: each is read into the element at `it - 1`, from the
    last one down. It gives up (`some none`) at a part that is no number of `w` bits. -/
def parseParts {α : Type*} {n : ℕ} (w base : ℕ) (ofNat : ℕ → α) :
    List Bytes → Vector α n → ℕ → Option (Option (Vector α n))
  | [], values, _ => some (some values)
  | part :: parts, values, it =>
    -- One part more than there are elements is stored in front of them.
    match fromChars w base part, it with
    | .error _, _ => some none
    | .ok _, 0 => none
    | .ok v, it + 1 =>
      if h : it < n then parseParts w base ofNat parts (values.set it (ofNat v) h) it else none

/-- What was written into a buffer of `size` characters, from its start up to `end`. -/
structure TextBuffer (size : ℕ) where
  text : Bytes
  length_le : text.length ≤ size

namespace TextBuffer

variable {size : ℕ}

/-- Nothing yet. -/
def empty : TextBuffer size := ⟨[], Nat.zero_le _⟩

/-- Characters at the end. -/
def append (b : TextBuffer size) (s : Bytes) : Option (TextBuffer size) :=
  if h : (b.text ++ s).length ≤ size then some ⟨b.text ++ s, h⟩ else none

/-- `std::to_chars(end, end + width, n, base)`: the `width` characters have to be in the buffer, and
    enough for the digits. -/
def putNumber (b : TextBuffer size) (base width n : ℕ) : Option (TextBuffer size) :=
  if b.text.length + width ≤ size then
    match toChars base width n with
    | .ok s => b.append s
    | .error _ => none
  else none

end TextBuffer

/-! ## Comparison -/

/-- The loop of `operator<=>`, over the bytes of two addresses. -/
def compareData : Bytes → Bytes → Ordering
  | l :: lhs, r :: rhs =>
    let cmp := compare l r
    if cmp.isLT then .lt else if cmp.isGT then .gt else compareData lhs rhs
  | _, _ => .eq

/-! ## IPv4 -/

/-- `ipv4_addr`. -/
structure Ipv4Addr where
  data : Vector Byte 4
  deriving DecidableEq

namespace Ipv4Addr

/-- `parse`. -/
def parse (str : Bytes) : Option (Option Ipv4Addr) :=
  (parseParts 8 10 UInt8.ofNat (splitString str (ch '.') 0) (.replicate 4 0) 4).map fun values =>
    values.map fun values => ⟨values⟩

/-- `operator std::uint32_t`. -/
def toUInt32 (a : Ipv4Addr) : UInt32 :=
  a.data[0].toUInt32 <<< 24 ||| a.data[1].toUInt32 <<< 16 ||| a.data[2].toUInt32 <<< 8 |||
    a.data[3].toUInt32 <<< 0

/-- `ipv4_addr` of an integer. -/
def ofUInt32 (addr : UInt32) : Ipv4Addr where
  data := #v[(addr >>> 24).toUInt8, (addr >>> 16).toUInt8, (addr >>> 8).toUInt8, (addr >>> 0).toUInt8]

/-- `is_loopback`. -/
def isLoopback (a : Ipv4Addr) : Bool := a.data[0] == 127

/-- `is_private_network`. -/
def isPrivateNetwork (a : Ipv4Addr) : Bool :=
  a.data[0] == 10 || (a.data[0] == 172 && a.data[1] &&& 0xf0 == 0x10) ||
    (a.data[0] == 192 && a.data[2] == 168)

/-- The loop of `to_string`, from the byte `i` down to the second one. -/
def writeLoop (a : Ipv4Addr) : ℕ → TextBuffer 15 → Option (TextBuffer 15)
  | 0, out => some out
  | i + 1, out =>
    a.data[i + 1]?.bind fun d =>
    (out.putNumber 10 3 d.toNat).bind fun out =>
    (out.append [ch '.']).bind fun out => a.writeLoop i out

/-- `to_string`. -/
def toString (a : Ipv4Addr) : Option Bytes :=
  (a.writeLoop 3 .empty).bind fun out => (out.putNumber 10 3 a.data[0].toNat).map TextBuffer.text

/-- `operator<=>`. -/
instance : Ord Ipv4Addr where
  compare lhs rhs := compareData lhs.data.toList rhs.data.toList

end Ipv4Addr

/-! ## IPv6 -/

/-- `ipv6_addr`. -/
structure Ipv6Addr where
  data : Vector Byte 16
  deriving DecidableEq

namespace Ipv6Addr

/-- `ipv6_addr` of eight parts of two bytes. -/
def ofParts (parts : Vector UInt16 8) : Ipv6Addr where
  data := #v[
    (parts[0] >>> 8).toUInt8, parts[0].toUInt8,
    (parts[1] >>> 8).toUInt8, parts[1].toUInt8,
    (parts[2] >>> 8).toUInt8, parts[2].toUInt8,
    (parts[3] >>> 8).toUInt8, parts[3].toUInt8,
    (parts[4] >>> 8).toUInt8, parts[4].toUInt8,
    (parts[5] >>> 8).toUInt8, parts[5].toUInt8,
    (parts[6] >>> 8).toUInt8, parts[6].toUInt8,
    (parts[7] >>> 8).toUInt8, parts[7].toUInt8]

/-- `parse`. -/
def parse (str : Bytes) : Option (Option Ipv6Addr) :=
  (parseParts 16 16 UInt16.ofNat (splitString str (ch ':') 0) (.replicate 8 0) 8).map fun values =>
    values.map ofParts

/-- Two bytes of an address, as `to_string` writes them. -/
def hexit (lo hi : Byte) : UInt16 := lo.toUInt16 ||| hi.toUInt16 <<< 8

/-- The loop of `to_string`, from the byte `i` down to the third one, two at a time. -/
def writeLoop (a : Ipv6Addr) : ℕ → TextBuffer 39 → Option (TextBuffer 39)
  | i + 2, out =>
    a.data[i + 2]?.bind fun lo =>
    a.data[i + 1]?.bind fun hi =>
    (out.putNumber 16 4 (hexit lo hi).toNat).bind fun out =>
    (out.append [ch ':']).bind fun out => a.writeLoop i out
  | _, out => some out

/-- `to_string`. -/
def toString (a : Ipv6Addr) : Option Bytes :=
  (a.writeLoop 15 .empty).bind fun out =>
    (out.putNumber 16 4 (hexit a.data[1] a.data[0]).toNat).map TextBuffer.text

/-- `ipv6_addr` of two integers. -/
def ofIntegers (subnet interface : UInt64) : Ipv6Addr where
  data := #v[
    (subnet >>> 56).toUInt8, (subnet >>> 48).toUInt8, (subnet >>> 40).toUInt8, (subnet >>> 32).toUInt8,
    (subnet >>> 24).toUInt8, (subnet >>> 16).toUInt8, (subnet >>> 8).toUInt8, (subnet >>> 0).toUInt8,
    (interface >>> 56).toUInt8, (interface >>> 48).toUInt8, (interface >>> 40).toUInt8, (interface >>> 32).toUInt8,
    (interface >>> 24).toUInt8, (interface >>> 16).toUInt8, (interface >>> 8).toUInt8, (interface >>> 0).toUInt8]

/-- `subnet_prefix`. -/
def subnetPrefix (a : Ipv6Addr) : UInt64 :=
  a.data[0].toUInt64 <<< 56 ||| a.data[1].toUInt64 <<< 48 ||| a.data[2].toUInt64 <<< 40 |||
    a.data[3].toUInt64 <<< 32 ||| a.data[4].toUInt64 <<< 24 ||| a.data[5].toUInt64 <<< 16 |||
    a.data[6].toUInt64 <<< 8 ||| a.data[7].toUInt64 <<< 0

/-- `interface_identifier`. -/
def interfaceIdentifier (a : Ipv6Addr) : UInt64 :=
  a.data[8].toUInt64 <<< 56 ||| a.data[9].toUInt64 <<< 48 ||| a.data[10].toUInt64 <<< 40 |||
    a.data[11].toUInt64 <<< 32 ||| a.data[12].toUInt64 <<< 24 ||| a.data[13].toUInt64 <<< 16 |||
    a.data[14].toUInt64 <<< 8 ||| a.data[15].toUInt64 <<< 0

/-- `operator<=>`. -/
instance : Ord Ipv6Addr where
  compare lhs rhs := compareData lhs.data.toList rhs.data.toList

end Ipv6Addr

/-! ## Either -/

/-- `ip_addr`. -/
inductive IpAddr
  | ipv4 (addr : Ipv4Addr)
  | ipv6 (addr : Ipv6Addr)
  deriving DecidableEq

namespace IpAddr

/-- `parse`: as an IPv6 address, if there is a colon, and if that fails, as an IPv4 address, if there is
    a dot. -/
def parse (str : Bytes) : Option (Option IpAddr) :=
  (if (find str (ch ':') 0).isSome then Ipv6Addr.parse str else some none).bind fun
    | some addr => some (some (ipv6 addr))
    | none =>
      (if (find str (ch '.') 0).isSome then Ipv4Addr.parse str else some none).map fun addr =>
        addr.map ipv4

/-- `to_string`. -/
def toString : IpAddr → Option Bytes
  | ipv4 addr => addr.toString
  | ipv6 addr => addr.toString

end IpAddr

end Cppnet
