import AdFilter.Driver.HostList
import AdFilter.Nt

/-!
# Loading the host files

`load_file` and `load_cfg`. A file is read in pieces of 256 bytes, of which the
last one is overwritten with a NUL; a line ends at a CR, and the byte after the CR
is skipped. The outer loop has a budget of rounds and no outcome past it.
-/

namespace AdFilter.Driver.LoadFile

open AdFilter.Nt
open AdFilter.Lib.Pool
open AdFilter.Driver.HostList

def buffSize : Nat := 256
def cr : UInt8 := 0x0d

/-- What `ZwReadFile` gives for the n-th read of a handle, at an offset: the bytes
it stores, 256 at most, or a failure. -/
abbrev Reader := Nat → Nat → Except NtStatus (List UInt8)

/-- `buff` after a read: zeroed before it, and with a NUL at its end. -/
def chunk (data : List UInt8) : Mem := fun i => if i < buffSize - 1 then data.getD i 0 else 0

/-- The copy loop from index `i` of `buff`: what goes to `len`, and whether a CR
ended it. -/
def scanLine (buff : Mem) : Nat → Nat → List UInt8 × Bool
  | 0, _ => ([], false)
  | n + 1, i =>
      if buff i = cr then ([], true)
      else if buff i = 0 then ([], false)
      else
        let r := scanLine buff n (i + 1)
        (buff i :: r.1, r.2)

/-- Why the loops stop before the end of the file. -/
inductive Stop
  | overrun
  | noMemory (a : Adf)

/-- A piece that has been gone through: where the loop stood, the lines it found,
and what `len` holds. -/
structure Chunk where
  adf : Adf
  pos : Nat
  lines : Nat
  len : List UInt8

/-- The loop over the lines of one piece. Every round but the last moves on by two
bytes at least, so `buffSize` rounds are enough. -/
def loadLines (p : Allocator Ptr) (header : Ptr) (buff : Mem) :
    Nat → Nat → Nat → Adf → Except Stop Chunk
  | 0, i, lines, a => .ok ⟨a, i, lines, []⟩
  | n + 1, i, lines, a =>
      if buffSize - 1 ≤ i then .ok ⟨a, i, lines, []⟩
      else
        let r := scanLine buff (buffSize - i) i
        if adfHostMaxLen < r.1.length then .error .overrun
        else if r.2 = false then .ok ⟨a, i, lines, r.1⟩
        else
          match addHostList p a header (textMem r.1) (strnlen (textMem r.1) adfHostMaxLen) with
          | (false, a') => .error (.noMemory a')
          | (true, a') => loadLines p header buff n (i + (r.1.length + 2)) (lines + 1) a'

inductive LoadResult
  /-- The routine returned; whether it closed its handle. -/
  | returned (status : NtStatus) (closed : Bool) (adf : Adf)
  /-- It wrote past the end of `len`. -/
  | overrun

/-- The outer loop, at a number of reads so far and an offset. -/
def loadChunks (p : Allocator Ptr) (header : Ptr) (read : Reader) :
    Nat → Nat → Nat → Adf → Option LoadResult
  | 0, _, _, _ => none
  | n + 1, call, offset, a =>
      match read call offset with
      | .error _ => some (.returned statusSuccess true a)
      | .ok data =>
          match loadLines p header (chunk data) buffSize 0 0 a with
          | .error .overrun => some .overrun
          | .error (.noMemory a') => some (.returned statusMemoryNotAllocated false a')
          | .ok c =>
              if c.lines = 0 then
                -- the second read does not touch `len`, which holds the last line
                match addHostList p c.adf header (textMem c.len)
                    (strnlen (textMem c.len) adfHostMaxLen) with
                | (false, a') => some (.returned statusMemoryNotAllocated false a')
                | (true, a') => some (.returned statusSuccess true a')
              else loadChunks p header read n (call + 1) ((offset + c.pos) % 2 ^ 32) c.adf

/-- `load_file`, with the result of opening the file. -/
def loadFile (p : Allocator Ptr) (fuel : Nat) (a : Adf) (passive : Bool)
    (file : Except NtStatus Reader) (header : Ptr) : Option LoadResult :=
  if passive = false then some (.returned statusInvalidDeviceState true a)
  else
    match file with
    | .error status => some (.returned status true a)
    | .ok read => loadChunks p header read fuel 0 0 a

/-- The registry values the driver starts from: the pause flag, and for each list
the file its path leads to. -/
structure Config where
  pause : Except NtStatus (BitVec 32)
  exceptFile : Except NtStatus (Except NtStatus Reader)
  userFile : Except NtStatus (Except NtStatus Reader)
  sysFile : Except NtStatus (Except NtStatus Reader)

/-- One of the three loads of `load_cfg`: its status and the state after it. -/
def loadList (p : Allocator Ptr) (fuel : Nat) (a : Adf) (list : AdHost)
    (path : Except NtStatus (Except NtStatus Reader)) : Option (NtStatus × Adf) :=
  match path with
  | .error status => some (status, a)
  | .ok file =>
      match loadFile p fuel a true file (.head list) with
      | some (.returned status _ a') => some (status, a')
      | _ => none

/-- `load_cfg`. Only the system file decides its status. -/
def loadCfg (p : Allocator Ptr) (fuel : Nat) (a : Adf) (cfg : Config) : Option (NtStatus × Adf) :=
  let a0 := initLists a
  let a1 := match cfg.pause with
    | .ok v => { a0 with paused := v }
    | .error _ => a0
  (loadList p fuel a1 .excpt cfg.exceptFile).bind fun r =>
    (loadList p fuel r.2 .user cfg.userFile).bind fun r' =>
      loadList p fuel r'.2 .sys cfg.sysFile

/-- A file on disk, read without errors: a read at or past its end fails. -/
def fileReader (content : List UInt8) : Reader := fun _ offset =>
  if content.length ≤ offset then .error statusEndOfFile
  else .ok ((content.drop offset).take buffSize)

/-- A line that fits is taken whole by `strnlen`. -/
theorem strnlen_textMem {text : List UInt8} (h0 : 0 ∉ text) (hl : text.length ≤ adfHostMaxLen) :
    strnlen (textMem text) adfHostMaxLen = text.length := by
  refine strnlenFrom_eq (Nat.zero_le _) (by omega) (fun j _ hj he => ?_) ?_
  · simp only [textMem, List.getD_eq_getElem?_getD, List.getElem?_eq_getElem hj,
      Option.getD_some] at he
    exact h0 (he ▸ List.getElem_mem hj)
  · exact Or.inr (by simp [textMem])

end AdFilter.Driver.LoadFile
