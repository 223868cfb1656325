import BoostCoro.Coasio.InetText
/-!
# Socket addresses

`inet_addr_t`, `unix_addr_t`, `sock_addr_t` and `to_sock_addr` of `coasio/addr.h`. The
constructor of `inet_addr_t` from a host and a port leaves `_host_ip` empty, and
`sock_addr_t::assign` reads nothing but `_host_ip`.
-/

namespace BoostCoro.Coasio

/-! ## Addresses as texts -/

structure InetAddr where
  host : CStr
  hostIp : CStr
  port : UInt16
  deriving DecidableEq, Repr

structure UnixAddr where
  path : CStr
  deriving DecidableEq, Repr

def afLocal : UInt16 := 1

def afInet : UInt16 := 2

/-- The union `_sockaddr`: `sa_family`, which all its members begin with, and the bytes
after it. -/
structure Sockaddr where
  saFamily : UInt16
  data : List UInt8
  data_length : data.length = 110
  deriving DecidableEq

namespace Sockaddr

/-- Bytes, and zeros up to the end of the union. -/
def ofBytes (family : UInt16) (bytes : List UInt8) : Sockaddr where
  saFamily := family
  data := (bytes ++ List.replicate 110 0).take 110
  data_length := by simp

/-- `memset(&_sockaddr, 0, sizeof(_sockaddr))`. -/
def zero : Sockaddr := ofBytes 0 []

/-- `in_4.sin_port`, in host order. -/
def sinPort (s : Sockaddr) : UInt16 := ntohs (s.data.getD 0 0) (s.data.getD 1 0)

/-- `in_4.sin_addr`. -/
def sinAddr (s : Sockaddr) : InAddr :=
  ⟨s.data.getD 2 0, s.data.getD 3 0, s.data.getD 4 0, s.data.getD 5 0⟩

/-- `unix_domain.sun_path` as a string. -/
def sunPath (s : Sockaddr) : CStr := s.data.takeWhile (· ≠ 0)

/-- The bytes of the union. -/
def bytes (s : Sockaddr) : List UInt8 :=
  s.saFamily.toUInt8 :: (s.saFamily >>> 8).toUInt8 :: s.data

end Sockaddr

namespace InetAddr

/-- `inet_addr_t(const char* host, unsigned short port)`. -/
def ofHost (host : CStr) (port : UInt16) : InetAddr := ⟨host, [], port⟩

/-- `inet_addr_t(const struct sockaddr_in * sockaddr)`. -/
def ofSockaddrIn (s : Sockaddr) : InetAddr := ⟨inetNtop s.sinAddr, inetNtop s.sinAddr, s.sinPort⟩

def toString (a : InetAddr) : CStr := a.host ++ [58] ++ decimal a.port.toNat

end InetAddr

/-- `unix_addr_t(const struct sockaddr_un* unix_addr)`. -/
def UnixAddr.ofSockaddrUn (s : Sockaddr) : UnixAddr := ⟨s.sunPath⟩

/-- `memcmp` of arrays of one length: the difference of the first bytes that differ. -/
def memcmp : List UInt8 → List UInt8 → Int
  | a :: s, b :: t => if a = b then memcmp s t else (a.toNat : Int) - b.toNat
  | _, _ => 0

/-! ## `sock_addr_t` -/

structure SockAddr where
  str : CStr
  len : Nat
  sockaddr : Sockaddr
  deriving DecidableEq

namespace SockAddr

/-- `assign(const unix_addr_t&)`. -/
def ofUnix (a : UnixAddr) : SockAddr where
  str := a.path
  len := 110
  sockaddr := .ofBytes afLocal ((a.path.takeWhile (· ≠ 0)).take 107)

/-- `assign(const inet_addr_t&)`: where `inet_pton` fails the zeros of `memset` stay. -/
def ofInet (a : InetAddr) : SockAddr where
  str := a.toString
  len := 16
  sockaddr :=
    let sinPort := htons a.port
    let sinAddr := (inetPton a.hostIp).getD Sockaddr.zero.sinAddr
    .ofBytes afInet [sinPort.1, sinPort.2, sinAddr.b0, sinAddr.b1, sinAddr.b2, sinAddr.b3]

/-- `assign(const sockaddr*)`; `none` when the assertion on the family fails. -/
def ofSockaddr (s : Sockaddr) : Option SockAddr :=
  if s.saFamily = afInet then some (ofInet (.ofSockaddrIn s))
  else if s.saFamily = afLocal then some (ofUnix ⟨s.sunPath⟩)
  else none

def family (s : SockAddr) : UInt16 := s.sockaddr.saFamily

/-- `to_inet_addr(inet_addr)`; `none` for the return value `-1`. -/
def toInetAddr (s : SockAddr) : Option InetAddr :=
  if s.family ≠ afInet then none else some (.ofSockaddrIn s.sockaddr)

/-- `to_unix_addr(unix_addr)`; `none` for the return value `-1`. -/
def toUnixAddr (s : SockAddr) : Option UnixAddr :=
  if s.family ≠ afLocal then none else some (.ofSockaddrUn s.sockaddr)

/-- `operator<`. -/
def lt (s t : SockAddr) : Bool := decide (memcmp s.sockaddr.bytes t.sockaddr.bytes < 0)

/-- `operator==`: `memcmp` of the unions. -/
def beq (s t : SockAddr) : Bool := decide (s.sockaddr = t.sockaddr)

end SockAddr

/-! ## Parsing -/

def addrPrefixInet : CStr := ascii ['i', 'n', 'e', 't', ':', '/', '/']

def addrPrefixLocal : CStr := ascii ['l', 'o', 'c', 'a', 'l', ':', '/', '/']

def addrPrefixFile : CStr := ascii ['f', 'i', 'l', 'e', ':', '/', '/']

def addrLocalhost : CStr := ascii ['1', '2', '7', '.', '0', '.', '0', '.', '1']

/-- `to_sock_addr(addr, bindhost)`. -/
def toSockAddr (addr : CStr) (bindhost : Option CStr) : SockAddr :=
  if addrPrefixInet.isPrefixOf addr then
    let addr := addr.drop addrPrefixInet.length
    match addr.idxOf? 58 with
    | some pos => .ofInet (.ofHost (addr.take pos) (UInt16.ofInt (atoi (addr.drop (pos + 1)))))
    | none => .ofInet (.ofHost (bindhost.getD addrLocalhost) (UInt16.ofInt (atoi addr)))
  else if addrPrefixLocal.isPrefixOf addr then
    .ofUnix ⟨addr.drop addrPrefixLocal.length⟩
  else if addrPrefixFile.isPrefixOf addr then
    .ofUnix ⟨addr.drop addrPrefixFile.length⟩
  else .ofUnix ⟨addr⟩

/-! ## What the constructors keep -/

variable {host : CStr}

namespace SockAddr

theorem sinPort_ofInet (i : InetAddr) : (ofInet i).sockaddr.sinPort = i.port :=
  ntohs_htons i.port

/-- The binary address is what `_host_ip` says. -/
theorem sinAddr_ofInet (i : InetAddr) :
    (ofInet i).sockaddr.sinAddr = (inetPton i.hostIp).getD .any := rfl

/-- An address that was read from a `sockaddr_in` keeps its binary address. -/
theorem sinAddr_ofSockaddrIn (s : Sockaddr) :
    (ofInet (.ofSockaddrIn s)).sockaddr.sinAddr = s.sinAddr := by
  rw [sinAddr_ofInet, InetAddr.ofSockaddrIn, inetPton_inetNtop]
  rfl

/-- An address that was made from a host has the binary address of no host. -/
theorem sinAddr_ofHost (host : CStr) (p : UInt16) :
    (ofInet (.ofHost host p)).sockaddr.sinAddr = .any := rfl

/-- Two internet addresses are equal if their binary addresses and ports are. -/
theorem beq_ofInet (i j : InetAddr) :
    (ofInet i).beq (ofInet j) = true ↔
      (ofInet i).sockaddr.sinAddr = (ofInet j).sockaddr.sinAddr ∧ i.port = j.port := by
  rw [beq, decide_eq_true_eq]
  constructor
  · intro h
    refine ⟨congrArg Sockaddr.sinAddr h, ?_⟩
    rw [← sinPort_ofInet i, h, sinPort_ofInet]
  · rintro ⟨haddr, hport⟩
    rw [sinAddr_ofInet, sinAddr_ofInet] at haddr
    have hzero : Sockaddr.zero.sinAddr = .any := rfl
    simp only [ofInet, hzero, haddr, hport]

end SockAddr

/-! ## What a text is parsed to -/

theorem port_decimal (p : UInt16) : UInt16.ofInt (atoi (decimal p.toNat)) = p := by
  have hlt : p.toNat < 65536 := p.toNat_lt
  rw [atoi_decimal, UInt16.ofInt, ← Int.ofNat_eq_natCast]
  have hmod : (Int.ofNat p.toNat % 2 ^ 16).toNat = p.toNat := by
    rw [Int.ofNat_eq_natCast]
    omega
  rw [hmod, UInt16.ofNat_toNat]

theorem toSockAddr_hostPort (hhost : 58 ∉ host) (p : UInt16) (bindhost : Option CStr) :
    toSockAddr (addrPrefixInet ++ (host ++ [58] ++ decimal p.toNat)) bindhost =
      .ofInet (.ofHost host p) := by
  have hprefix : addrPrefixInet.isPrefixOf
      (addrPrefixInet ++ (host ++ [58] ++ decimal p.toNat)) = true :=
    List.isPrefixOf_iff_prefix.mpr (List.prefix_append _ _)
  have hpos : (host ++ [58] ++ decimal p.toNat).idxOf? 58 = some host.length := by
    rw [List.idxOf?_eq_some_iff]
    refine ⟨by simp, by simp, fun j hj => ?_⟩
    have hj' : j < (host ++ [58]).length := by
      rw [List.length_append]
      omega
    rw [List.getElem_append_left hj', List.getElem_append_left hj]
    exact fun heq => hhost (heq ▸ List.getElem_mem hj)
  have htake : (host ++ [58] ++ decimal p.toNat).take host.length = host := by
    rw [List.append_assoc, List.take_left]
  have hdrop : (host ++ [58] ++ decimal p.toNat).drop (host.length + 1) = decimal p.toNat :=
    List.drop_left' (by simp)
  rw [toSockAddr, if_pos hprefix]
  simp only [List.drop_left, hpos, htake, hdrop, port_decimal]

theorem toSockAddr_port (p : UInt16) (bindhost : Option CStr) :
    toSockAddr (addrPrefixInet ++ decimal p.toNat) bindhost =
      .ofInet (.ofHost (bindhost.getD addrLocalhost) p) := by
  have hprefix : addrPrefixInet.isPrefixOf (addrPrefixInet ++ decimal p.toNat) = true :=
    List.isPrefixOf_iff_prefix.mpr (List.prefix_append _ _)
  have hnone : (decimal p.toNat).idxOf? 58 = none :=
    List.idxOf?_eq_none_iff.mpr (notMem_decimal rfl _)
  rw [toSockAddr, if_pos hprefix]
  simp only [List.drop_left, hnone, port_decimal]

/-- `INADDR_LOOPBACK`. -/
def InAddr.localhost : InAddr := ⟨127, 0, 0, 1⟩

/-- The texts `inet://a.b.c.d:p` and `inet://p`, with the argument `bindhost`. -/
inductive InetText where
  | hostPort (a : InAddr) (p : UInt16) (bindhost : Option CStr)
  | port (p : UInt16) (bindhost : Option InAddr)

namespace InetText

/-- The address that the text stands for. -/
def addr : InetText → InAddr
  | hostPort a _ _ => a
  | port _ bindhost => bindhost.getD .localhost

/-- The port that the text stands for. -/
def portOf : InetText → UInt16
  | hostPort _ p _ => p
  | port p _ => p

def parse : InetText → SockAddr
  | hostPort a p bindhost =>
    toSockAddr (addrPrefixInet ++ (inetNtop a ++ [58] ++ decimal p.toNat)) bindhost
  | port p bindhost => toSockAddr (addrPrefixInet ++ decimal p.toNat) (bindhost.map inetNtop)

theorem addrLocalhost_eq : addrLocalhost = inetNtop .localhost := by decide +kernel

/-- The host of the text becomes `_host`, and `_host_ip` stays empty. -/
theorem parse_eq (t : InetText) : t.parse = .ofInet (.ofHost (inetNtop t.addr) t.portOf) := by
  cases t with
  | hostPort a p bindhost => exact toSockAddr_hostPort (colon_notMem_inetNtop a) p bindhost
  | port p bindhost =>
      rw [parse, toSockAddr_port]
      cases bindhost with
      | none => rw [addrLocalhost_eq]; rfl
      | some a => rfl

end InetText

/-! ## Round trips -/

/-- `s` is the internet address with binary address `a` and port `p`, and `to_inet_addr` gives
them back. -/
structure SockAddr.Denotes (s : SockAddr) (a : InAddr) (p : UInt16) : Prop where
  family : s.family = afInet
  addr : s.sockaddr.sinAddr = a
  port : s.sockaddr.sinPort = p
  back : ∃ i, s.toInetAddr = some i ∧ i.host = inetNtop a ∧ i.port = p

/-- A text is parsed to the address it stands for exactly if that is `0.0.0.0`; and an address
assigned from a `sockaddr_in` is parsed back from its text exactly if it is `0.0.0.0`. -/
theorem inet_round_trip_iff (t : InetText) (s : Sockaddr) (bindhost : Option CStr) :
    (t.parse.Denotes t.addr t.portOf ↔ t.addr = .any) ∧
      (s.saFamily = afInet → ∃ u, SockAddr.ofSockaddr s = some u ∧
        ((toSockAddr (addrPrefixInet ++ u.str) bindhost).beq u = true ↔ s.sinAddr = .any)) := by
  constructor
  · rw [t.parse_eq]
    constructor
    · intro h
      rw [← h.addr, SockAddr.sinAddr_ofHost]
    · intro hany
      have haddr := SockAddr.sinAddr_ofHost (inetNtop t.addr) t.portOf
      have hport := SockAddr.sinPort_ofInet (.ofHost (inetNtop t.addr) t.portOf)
      refine ⟨rfl, haddr.trans hany.symm, hport, _, rfl, ?_, hport⟩
      rw [InetAddr.ofSockaddrIn, haddr, hany]
  · intro hfamily
    refine ⟨_, if_pos hfamily, ?_⟩
    have hparse : toSockAddr (addrPrefixInet ++ (SockAddr.ofInet (.ofSockaddrIn s)).str) bindhost =
        .ofInet (.ofHost (inetNtop s.sinAddr) s.sinPort) :=
      toSockAddr_hostPort (colon_notMem_inetNtop s.sinAddr) s.sinPort bindhost
    rw [hparse, SockAddr.beq_ofInet, SockAddr.sinAddr_ofHost, SockAddr.sinAddr_ofSockaddrIn]
    constructor
    · exact fun h => h.1.symm
    · exact fun h => ⟨h.symm, rfl⟩

/-- `inet://127.0.0.1:80` is parsed to `0.0.0.0:80`. -/
theorem inet_loses_host :
    (InetText.hostPort .localhost 80 none).parse.sockaddr.sinAddr = .any ∧
      (InetText.hostPort .localhost 80 none).parse.sockaddr.sinPort = 80 ∧
        InAddr.localhost ≠ .any := by
  decide +kernel

end BoostCoro.Coasio
