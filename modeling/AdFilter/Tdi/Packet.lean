import AdFilter.Lib.BufferChain
import AdFilter.Tdi.Ipc

/-!
# Parsing a packet

`filter_packet` of the packet engine. A packet is a chain of buffers; the headers are read
through pointers into them, and the accesses are kept in their order. When the driver asks
for a buffer after the last one, the run has no result. What `check_packet` makes of a
request is a parameter: it reads the tables of the driver and not the packet.
-/

namespace AdFilter.Tdi.Packet

open AdFilter.Lib.BufferChain
open AdFilter.Tdi.Ipc

def etherHdrSize : Nat := 14
def ipHdrSize : Nat := 20
def tcpHdrSize : Nat := 20
def udpHdrSize : Nat := 8
def icmpHdrSize : Nat := 4

def ethertypeIp : Nat := 0x0800
def ipDf : Nat := 0x4000
def ipOffmask : Nat := 0x1fff
def ipprotoIcmp : Nat := 1

def filterPacketLog : Nat := 3
def filterPacketBad : Nat := 4

/-- A zeroed `struct flt_request` with the members for packets. -/
structure PacketRequest extends FltRequest where
  isBroadcast : Bool := false
  tcpFlags : UInt8 := 0
  icmpType : UInt8 := 0
  icmpCode : UInt8 := 0
  tcpState : Int := 0
deriving DecidableEq, Repr

/-- Whether the packet is passed on, and the request that is logged. -/
structure Verdict where
  pass : Bool
  logged : Option PacketRequest
deriving DecidableEq, Repr

structure Run where
  accesses : List Access
  verdict : Option Verdict
deriving DecidableEq, Repr

def Run.after (r : Run) (accesses : List Access) : Run := { r with accesses := accesses ++ r.accesses }

/-- A move of the pointer, and what is done there. -/
def moved (m : List Access × Option (Cursor UInt8)) (k : Cursor UInt8 → Run) : Run :=
  match m.2 with
  | none => ⟨m.1, none⟩
  | some c => (k c).after m.1

/-- From the label `done` on. -/
def done (result log : Bool) (logNfo : PacketRequest) : Run where
  accesses := []
  verdict := some ⟨result,
    if log then
      some { logNfo with
        result := if result then filterPacketLog else filterPacketBad
        pid := 2 ^ 32 - 1 }
    else none⟩

/-! ## Headers -/

/-- Bytes of a header, in the order of the packet. -/
def field (c : Cursor UInt8) (i size : Nat) : List UInt8 := (List.range size).map fun k => c.byte (i + k)

/-- A `USHORT` as it is loaded. -/
def ushort (c : Cursor UInt8) (i : Nat) : Nat := (c.byte i).toNat + (c.byte (i + 1)).toNat * 256

def ntohs (n : Nat) : Nat := n % 256 * 256 + n / 256

def etherType (eth : Cursor UInt8) : Nat := ntohs (ushort eth 12)

/-- `ip_hl * 4` -/
def hdrLen (ip : Cursor UInt8) : Nat := (ip.byte 0).toNat % 16 * 4

def ipOffset (ip : Cursor UInt8) : Nat := ntohs (ushort ip 6) &&& ipOffmask

/-- The flag is tested in the field as it is loaded, where it is a bit of the offset: a
fragment with this bit in the low byte of its offset is taken for a first one. -/
def notFirstFragment (ip : Cursor UInt8) : Bool := ipOffset ip ≠ 0 && (ushort ip 6 &&& ipDf) == 0

/-- A `struct sockaddr_in` without a port. -/
def sockaddrIn (addr : List UInt8) : SockAddr := [2, 0, 0, 0] ++ addr ++ List.replicate 8 0

def setPort (a : SockAddr) (port : List UInt8) : SockAddr := a.take 2 ++ port ++ a.drop 4

def processIp (direction : Int) (ip : Cursor UInt8) (logNfo : PacketRequest) : PacketRequest :=
  { logNfo with
    proto := (ip.byte 9).toNat
    logBytesIn := if direction = directionIn then ntohs (ushort ip 2) else logNfo.logBytesIn
    logBytesOut := if direction = directionIn then logNfo.logBytesOut else ntohs (ushort ip 2)
    addrFrom := sockaddrIn (field ip 12 4)
    addrTo := sockaddrIn (field ip 16 4) }

/-- A debug build prints some of the members first. -/
def ipReads (dbg : Bool) (ip : Cursor UInt8) : List Access :=
  (if dbg then [ip.read 12 4, ip.read 16 4, ip.read 9 1, ip.read 4 2] else []) ++
    [ip.read 9 1, ip.read 2 2, ip.read 12 4, ip.read 16 4]

def processTcp (check : PacketRequest → PacketRequest) (tcp : Cursor UInt8) (logNfo : PacketRequest) :
    PacketRequest :=
  check { logNfo with
    tcpFlags := tcp.byte 13
    addrFrom := setPort logNfo.addrFrom (field tcp 0 2)
    addrTo := setPort logNfo.addrTo (field tcp 2 2) }

def tcpReads (dbg : Bool) (tcp : Cursor UInt8) : List Access :=
  (if dbg then [tcp.read 13 1, tcp.read 0 2, tcp.read 2 2] else []) ++
    [tcp.read 13 1, tcp.read 0 2, tcp.read 2 2]

def processUdp (check : PacketRequest → PacketRequest) (udp : Cursor UInt8) (logNfo : PacketRequest) :
    PacketRequest :=
  check { logNfo with
    addrFrom := setPort logNfo.addrFrom (field udp 0 2)
    addrTo := setPort logNfo.addrTo (field udp 2 2) }

def udpReads (dbg : Bool) (udp : Cursor UInt8) : List Access :=
  (if dbg then [udp.read 0 2, udp.read 2 2] else []) ++ [udp.read 0 2, udp.read 2 2]

def processIcmp (check : PacketRequest → PacketRequest) (icmp : Cursor UInt8)
    (logNfo : PacketRequest) : PacketRequest :=
  check { logNfo with icmpType := icmp.byte 0, icmpCode := icmp.byte 1 }

def icmpReads (dbg : Bool) (icmp : Cursor UInt8) : List Access :=
  (if dbg then [icmp.read 0 1, icmp.read 1 1] else []) ++ [icmp.read 0 1, icmp.read 1 1]

/-- `process_transp`: what it reads, and the request unless the header is too small. -/
def processTransp (dbg : Bool) (check : PacketRequest → PacketRequest) (proto : Nat)
    (pointer : Cursor UInt8) (logNfo : PacketRequest) : List Access × Option PacketRequest :=
  if proto = ipprotoTcp then
    if pointer.left < tcpHdrSize then ([], none)
    else (tcpReads dbg pointer, some (processTcp check pointer logNfo))
  else if proto = ipprotoUdp then
    if pointer.left < udpHdrSize then ([], none)
    else (udpReads dbg pointer, some (processUdp check pointer logNfo))
  else if proto = ipprotoIcmp then
    if pointer.left < icmpHdrSize then ([], none)
    else (icmpReads dbg pointer, some (processIcmp check pointer logNfo))
  else ([], some logNfo)

/-! ## The packet -/

def packetLen (chain : List (List UInt8)) : Nat := (chain.map List.length).sum

/-- `filter_packet` at the transport header. -/
def filterTransp (dbg : Bool) (check : PacketRequest → PacketRequest) (ip : Cursor UInt8)
    (logNfo : PacketRequest) (pointer : Cursor UInt8) : Run :=
  let r := processTransp dbg check (ip.byte 9).toNat pointer logNfo
  let rest :=
    match r.2 with
    | none => done false true logNfo
    | some nfo => done true (nfo.pid == 0) nfo
  rest.after (ip.read 9 1 :: r.1)

/-- `filter_packet` at the IP header. -/
def filterIp (dbg : Bool) (check : PacketRequest → PacketRequest) (direction : Int)
    (logNfo : PacketRequest) (ip : Cursor UInt8) : Run :=
  if ip.left < ipHdrSize then done false true logNfo
  else
    let rest :=
      if ip.left < hdrLen ip then done false true logNfo
      else
        let rest :=
          if notFirstFragment ip then done true false logNfo
          else
            let nfo := processIp direction ip logNfo
            (moved (ip.advance (hdrLen ip)) (filterTransp dbg check ip nfo)).after (ipReads dbg ip)
        rest.after (ip.read 6 2 :: if ipOffset ip ≠ 0 then [ip.read 6 2] else [])
    rest.after [ip.read 0 1]

def etherReads (dbg : Bool) (eth : Cursor UInt8) : List Access :=
  (if dbg then [eth.read 6 6, eth.read 0 6, eth.read 12 2] else []) ++ [eth.read 0 6]

/-- `filter_packet`. The type of the frame is read after the move to the next header, through
the pointer into the first buffer. -/
def filterPacket (dbg : Bool) (check : PacketRequest → PacketRequest) (direction : Int)
    (chain : List (List UInt8)) : Run :=
  let logNfo : PacketRequest :=
    { direction := direction, addrFrom := List.replicate 16 0, addrTo := List.replicate 16 0 }
  if packetLen chain < etherHdrSize then done false true logNfo
  else
    match chain with
    | [] => done false true logNfo
    | buffer :: rest =>
        let eth : Cursor UInt8 := ⟨0, buffer, rest, 0⟩
        let run :=
          if eth.left < etherHdrSize then done false true logNfo
          else
            let nfo := { logNfo with isBroadcast := field eth 0 6 == List.replicate 6 0xff }
            (moved (eth.advance etherHdrSize) fun pointer =>
              let run :=
                if etherType eth = ethertypeIp then filterIp dbg check direction nfo pointer
                else done true false nfo
              run.after [eth.read 12 2]).after (etherReads dbg eth)
        run.after [.query 0]

end AdFilter.Tdi.Packet
