import BitBay.Base.Types
import BitBay.Library.Wire
import Mathlib.Order.Lattice

/-!
# Network addresses

An address of 16 bytes, an IPv4 address being mapped into it, with the checks that tell which
networks are reachable from everywhere, and its group: the part of it that one operator is likely
to hold completely.
-/
namespace BitBay

structure CNetAddr where
  ip : BitVec 128
  deriving DecidableEq

/-- `memcmp` compares the numbers. -/
instance instLinearOrderCNetAddr : LinearOrder CNetAddr :=
  LinearOrder.lift' (fun a : CNetAddr => a.ip.toNat) fun a b h => by
    cases a
    cases b
    exact congrArg CNetAddr.mk (BitVec.eq_of_toNat_eq h)

def pchIPv4 : List UInt8 := [0, 0, 0, 0, 0, 0, 0, 0, 0, 0, 0xff, 0xff]

def pchOnionCat : List UInt8 := [0xFD, 0x87, 0xD8, 0x7E, 0xEB, 0x43]

def pchGarliCat : List UInt8 := [0xFD, 0x60, 0xDB, 0x4D, 0xDD, 0xB5]

namespace CNetAddr

inductive Network
  | NET_UNROUTABLE
  | NET_IPV4
  | NET_IPV6
  | NET_TOR
  | NET_I2P

def Network.toByte : Network → UInt8
  | .NET_UNROUTABLE => 0
  | .NET_IPV4 => 1
  | .NET_IPV6 => 2
  | .NET_TOR => 3
  | .NET_I2P => 4

def getByte (a : CNetAddr) (n : ℕ) : ℕ := a.ip.toNat / 256 ^ n % 256

def bytes (a : CNetAddr) : List UInt8 :=
  (List.range 16).map fun i => UInt8.ofNat (a.getByte (15 - i))

def startsWith (a : CNetAddr) (pch : List UInt8) : Bool := a.bytes.take pch.length = pch

def isIPv4 (a : CNetAddr) : Bool := a.startsWith pchIPv4

def isRFC1918 (a : CNetAddr) : Bool :=
  a.isIPv4 && (a.getByte 3 = 10 || (a.getByte 3 = 192 && a.getByte 2 = 168) ||
    (a.getByte 3 = 172 && (16 ≤ a.getByte 2 && a.getByte 2 ≤ 31)))

def isRFC3927 (a : CNetAddr) : Bool := a.isIPv4 && (a.getByte 3 = 169 && a.getByte 2 = 254)

def isRFC3849 (a : CNetAddr) : Bool :=
  a.getByte 15 = 0x20 && a.getByte 14 = 0x01 && a.getByte 13 = 0x0D && a.getByte 12 = 0xB8

def isRFC3964 (a : CNetAddr) : Bool := a.getByte 15 = 0x20 && a.getByte 14 = 0x02

def isRFC6052 (a : CNetAddr) : Bool := a.startsWith [0, 0x64, 0xFF, 0x9B, 0, 0, 0, 0, 0, 0, 0, 0]

def isRFC4380 (a : CNetAddr) : Bool :=
  a.getByte 15 = 0x20 && a.getByte 14 = 0x01 && a.getByte 13 = 0 && a.getByte 12 = 0

def isRFC4862 (a : CNetAddr) : Bool := a.startsWith [0xFE, 0x80, 0, 0, 0, 0, 0, 0]

def isRFC4193 (a : CNetAddr) : Bool := a.getByte 15 &&& 0xFE = 0xFC

def isRFC6145 (a : CNetAddr) : Bool := a.startsWith [0, 0, 0, 0, 0, 0, 0, 0, 0xFF, 0xFF, 0, 0]

def isRFC4843 (a : CNetAddr) : Bool :=
  a.getByte 15 = 0x20 && a.getByte 14 = 0x01 && a.getByte 13 = 0x00 &&
    a.getByte 12 &&& 0xF0 = 0x10

def isTor (a : CNetAddr) : Bool := a.startsWith pchOnionCat

def isI2P (a : CNetAddr) : Bool := a.startsWith pchGarliCat

def isLocal (a : CNetAddr) : Bool :=
  (a.isIPv4 && (a.getByte 3 = 127 || a.getByte 3 = 0)) ||
    a.startsWith [0, 0, 0, 0, 0, 0, 0, 0, 0, 0, 0, 0, 0, 0, 0, 1]

def isValid (a : CNetAddr) : Bool :=
  if a.startsWith (pchIPv4.drop 3) then false
  else if a.ip = 0 then false
  else if a.isRFC3849 then false
  else if a.isIPv4 && a.bytes.drop 12 = [0xFF, 0xFF, 0xFF, 0xFF] then false
  else if a.isIPv4 && a.bytes.drop 12 = [0, 0, 0, 0] then false
  else true

def isRoutable (a : CNetAddr) : Bool :=
  a.isValid && !(a.isRFC1918 || a.isRFC3927 || a.isRFC4862 ||
    (a.isRFC4193 && !a.isTor && !a.isI2P) || a.isRFC4843 || a.isLocal)

/-- The highest `nBits` bits behind the first bytes, the last byte filled up with ones. -/
def groupBits (a : CNetAddr) (nStartByte nBits : ℕ) : List UInt8 :=
  if 8 ≤ nBits then
    UInt8.ofNat (a.getByte (15 - nStartByte)) :: a.groupBits (nStartByte + 1) (nBits - 8)
  else if 0 < nBits then [UInt8.ofNat (a.getByte (15 - nStartByte) ||| (2 ^ nBits - 1))]
  else []
termination_by nBits

def getGroup (a : CNetAddr) : List UInt8 :=
  let nBits := if a.isLocal then 0 else 16
  if !a.isRoutable then [Network.NET_UNROUTABLE.toByte]
  else if a.isIPv4 || a.isRFC6145 || a.isRFC6052 then
    Network.NET_IPV4.toByte :: a.groupBits 12 nBits
  else if a.isRFC3964 then Network.NET_IPV4.toByte :: a.groupBits 2 nBits
  else if a.isRFC4380 then
    [Network.NET_IPV4.toByte, UInt8.ofNat (a.getByte 3 ^^^ 0xFF),
      UInt8.ofNat (a.getByte 2 ^^^ 0xFF)]
  else if a.isTor then Network.NET_TOR.toByte :: a.groupBits 6 4
  else if a.isI2P then Network.NET_I2P.toByte :: a.groupBits 6 4
  else if a.getByte 15 = 0x20 && a.getByte 14 = 0x11 && a.getByte 13 = 0x04 &&
      a.getByte 12 = 0x70 then
    Network.NET_IPV6.toByte :: a.groupBits 0 36
  else Network.NET_IPV6.toByte :: a.groupBits 0 32

end CNetAddr

structure CService extends CNetAddr where
  port : UInt16
  deriving DecidableEq

def CService.getKey (s : CService) : List UInt8 :=
  s.bytes ++ [UInt8.ofNat (s.port.toNat / 0x100), UInt8.ofNat (s.port.toNat % 0x100)]

def NODE_NETWORK : UInt64 := 1

structure CAddress extends CService where
  nServices : UInt64 := NODE_NETWORK
  nTime : UInt32 := 100000000
  nLastTry : Int64 := 0

end BitBay
