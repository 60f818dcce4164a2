import Mathlib.Algebra.Order.Ring.Nat
import Mathlib.Tactic.Common

/-!
# Status codes

The `NTSTATUS` values the driver tests, returns or passes on.
-/

namespace AdFilter.Nt

abbrev NtStatus := UInt32

def statusSuccess : NtStatus := 0
def statusTimeout : NtStatus := 0x102
def statusPending : NtStatus := 0x103
def statusObjectNameExists : NtStatus := 0x40000000
def statusUnsuccessful : NtStatus := 0xC0000001
def statusInfoLengthMismatch : NtStatus := 0xC0000004
def statusInvalidParameter : NtStatus := 0xC000000D
def statusEndOfFile : NtStatus := 0xC0000011
def statusMoreProcessingRequired : NtStatus := 0xC0000016
def statusAccessDenied : NtStatus := 0xC0000022
def statusBufferTooSmall : NtStatus := 0xC0000023
def statusObjectNameNotFound : NtStatus := 0xC0000034
def statusInsufficientResources : NtStatus := 0xC000009A
def statusIoTimeout : NtStatus := 0xC00000B5
def statusMemoryNotAllocated : NtStatus := 0xC00000A0
def statusNotSupported : NtStatus := 0xC00000BB
def statusRemoteNotListening : NtStatus := 0xC00000BC
def statusInvalidParameter1 : NtStatus := 0xC00000EF
def statusInvalidParameter2 : NtStatus := 0xC00000F0
def statusCancelled : NtStatus := 0xC0000120
def statusInvalidAddress : NtStatus := 0xC0000141
def statusInvalidDeviceState : NtStatus := 0xC0000184
def statusConnectionReset : NtStatus := 0xC000020D
def statusDataNotAccepted : NtStatus := 0xC000021B
def statusConnectionRefused : NtStatus := 0xC0000236
def statusNetworkUnreachable : NtStatus := 0xC000023C
def statusHostUnreachable : NtStatus := 0xC000023D
def statusProtocolUnreachable : NtStatus := 0xC000023E
def statusPortUnreachable : NtStatus := 0xC000023F
def statusConnectionAborted : NtStatus := 0xC0000241

/-- `NT_SUCCESS`: success and informational codes. -/
def ntSuccess (status : NtStatus) : Bool := decide (status < 0x80000000)

end AdFilter.Nt
