import OperatingSystems.Interceptor.Loading
import OperatingSystems.Output.Text
import OperatingSystems.ProcessInfo.Syscall

/-!
# System calls through the table

A process that makes a system call runs the function whose address it finds in
the table. The handlers of `openclose` write a line to the log and call the
function that was there before them, those of `module` and `intercept` answer
the call themselves. Any number of processes can be in the kernel at a time, and
modules are loaded and unloaded meanwhile. A process that is to run code of a
module that is not in the kernel any more cannot go on.

What the rest of the kernel does is a parameter.
-/

namespace OperatingSystems

namespace Interceptor

open OperatingSystems OperatingSystems.Output OperatingSystems.ProcessInfo

/-- The handlers of the modules. -/
inductive Handler
  /-- `new_sys_cs3013_syscall1` of `openclose`. -/
  | newOpen
  /-- `new_sys_cs3013_syscall2` of `openclose`. -/
  | newClose
  /-- `new_sys_cs3013_syscall1` of `module`. -/
  | newSyscall1
  /-- `new_sys_cs3013_syscall2` of `intercept`. -/
  | newSyscall2
deriving DecidableEq

def Handler.owner : Handler → KernelModule
  | .newOpen => .openclose
  | .newClose => .openclose
  | .newSyscall1 => .module
  | .newSyscall2 => .intercept

def Handler.all : List Handler := [.newOpen, .newClose, .newSyscall1, .newSyscall2]

variable {W : WordSize}

def Symbols.address (K : Symbols W) : Handler → Word W
  | .newOpen => K.newOpen
  | .newClose => K.newClose
  | .newSyscall1 => K.newSyscall1
  | .newSyscall2 => K.newSyscall2

/-- The entry of the table that a handler is put into. -/
def Symbols.slot (K : Symbols W) : Handler → ℕ
  | .newOpen => K.nrOpen
  | .newClose => K.nrClose
  | .newSyscall1 => K.nrSyscall1
  | .newSyscall2 => K.nrSyscall2

/-- The handler whose code begins at an address. -/
def Symbols.handlerAt (K : Symbols W) (a : Word W) : Option Handler :=
  Handler.all.find? fun h => K.address h = a

/-- A system call: its number, which the table has an entry for, and the
arguments of a handler. -/
structure Call (W : WordSize) where
  number : ℕ
  arg1 : Word W
  arg2 : Word W
  arg3 : Word W
  number_fits : number * W.bytes < 2 ^ W.bits

/-- The rest of the kernel, with states of type `E`. -/
structure Services (W : WordSize) (ι C E : Type*) where
  /-- The value that the function at an address returns to a process, what it writes to
  the log, and the state that it leaves. -/
  handle : Word W → ι → Call W → E → ℤ × List (List UInt8) × E
  currentUid : ι → E → BitVec 32
  /-- The string at an address of a process, unless it cannot be read. -/
  userString : ι → Word W → E → Option (List UInt8)
  current : ι → E → Current C
  cputimeToUsecs : C → BitVec 64
  /-- How many bytes `copy_to_user` leaves out, and the state after it. -/
  copyToUser : ι → Word W → Info → E → ℕ × E

/-- How far a process has come with a system call. -/
inductive Stage (W : WordSize)
  | user
  /-- The process is to run the function at an address, and to return from it to
  handlers that have called it. -/
  | calls (a : Word W) (callers : List Handler) (c : Call W)
  /-- A handler of `openclose` is to call the function it has saved. -/
  | logged (h : Handler) (callers : List Handler) (c : Call W)
  | returns (value : ℤ) (callers : List Handler) (c : Call W)
  /-- The process has stopped with a fault. -/
  | oops (before : Stage W)

/-- The machine with the modules and the processes, what has been written to the
log, and the values that system calls have returned. -/
structure System (W : WordSize) (ι E : Type*) where
  modules : State W
  env : E
  stage : ι → Stage W
  log : List (List UInt8)
  results : List (ι × Call W × ℤ)

/-- What can happen next. -/
inductive SystemEvent (W : WordSize) (ι : Type*)
  | manage (e : Event)
  | call (p : ι) (c : Call W)
  | step (p : ι)

section Texts

/-- A digit of `%X`. -/
def hexDigit (c : Char) : UInt8 := UInt8.ofNat c.toUpper.toNat

/-- `0x%02lX`. -/
def hexText (a : Word W) : List UInt8 :=
  let hex := (Nat.toDigits 16 a.toNat).map hexDigit
  ascii "0x" ++ List.replicate (2 - hex.length) 48 ++ hex

def foundLine (sct : Word W) : List UInt8 :=
  ascii "Interceptor: Found syscall table at address: " ++ hexText sct

def loadedLine : List UInt8 := ascii "Loaded interceptor!"

def unloadedLine : List UInt8 := ascii "Unloaded interceptor!"

def openingLine (uid : BitVec 32) (pathname : List UInt8) : List UInt8 :=
  ascii "User " ++ decimal uid.toInt ++ ascii " is opening file: " ++ pathname

def closingLine (uid fd : BitVec 32) : List UInt8 :=
  ascii "User " ++ decimal uid.toInt ++ ascii " is closing file descriptor: " ++
    decimal fd.toInt

def goodbyeLine : List UInt8 :=
  ascii "\"'Hello world?!' More like 'Goodbye, world!' EXTERMINATE!\" -- Dalek"

/-- What a load or an unload writes to the log. `find_sys_call_table` writes its line
before it returns, also where it takes address 0 for the table. -/
def Event.lines (table : Word W) (s : State W) : Event → List (List UInt8)
  | .load _ found =>
    let sct := if found then table else 0
    foundLine sct :: if sct = 0 then [] else [loadedLine]
  | .unload m =>
    match s.loaded m with
    | none => []
    | some d => if d.sysCallTable = 0 then [] else [unloadedLine]

end Texts

variable {ι C E : Type*} (K : Symbols W) (V : Services W ι C E)

namespace Services

/-- The lines that the test of `current_uid` lets a handler of `openclose` write,
unless the path cannot be read. -/
def lines (h : Handler) (p : ι) (c : Call W) (e : E) : Option (List (List UInt8)) :=
  if 1000 ≤ (V.currentUid p e).toNat then
    match h with
    | .newOpen => (V.userString p c.arg1 e).map fun path => [openingLine (V.currentUid p e) path]
    | _ => some [closingLine (V.currentUid p e) (c.arg1.setWidth 32)]
  else some []

/-- `new_sys_cs3013_syscall2` of `intercept`. -/
def processInfo (p : ι) (c : Call W) (e : E) : ℤ × E :=
  let info := (V.current p e).pinfo V.cputimeToUsecs
  let r := V.copyToUser p c.arg1 info e
  (((V.current p e).newSysCs3013Syscall2 V.cputimeToUsecs (r.1 = 0)).1, r.2)

end Services

namespace System

variable (s : System W ι E) (p : ι) [DecidableEq ι]

def setStage (stage : Stage W) : System W ι E :=
  { s with stage := Function.update s.stage p stage }

/-- The function at `a` is run up to its end, or up to the call of the function
that it has saved. -/
def runFunction (a : Word W) (callers : List Handler) (c : Call W) : System W ι E :=
  match K.handlerAt a with
  | none =>
    let r := V.handle a p c s.env
    { s with env := r.2.2, log := s.log ++ r.2.1 }.setStage p (.returns r.1 callers c)
  | some h =>
    if s.modules.loaded h.owner = none then s.setStage p (.oops (.calls a callers c))
    else
      match h with
      | .newSyscall1 =>
        { s with log := s.log ++ [goodbyeLine] }.setStage p (.returns 0 callers c)
      | .newSyscall2 =>
        let r := V.processInfo p c s.env
        { s with env := r.2 }.setStage p (.returns r.1 callers c)
      | h =>
        match V.lines h p c s.env with
        | none => s.setStage p (.oops (.calls a callers c))
        | some lines => { s with log := s.log ++ lines }.setStage p (.logged h callers c)

/-- A handler of `openclose` calls the function that it has saved. -/
def runSaved (h : Handler) (callers : List Handler) (c : Call W) : System W ι E :=
  match s.modules.loaded h.owner with
  | none => s.setStage p (.oops (.logged h callers c))
  | some d => s.setStage p (.calls ((d.refs.lookup (K.slot h)).getD 0) (h :: callers) c)

/-- The value goes to the handler that has made the call, or to the process. -/
def runReturn (value : ℤ) (callers : List Handler) (c : Call W) : System W ι E :=
  match callers with
  | [] => { s with results := s.results ++ [(p, c, value)] }.setStage p .user
  | h :: callers' =>
    if s.modules.loaded h.owner = none then s.setStage p (.oops (.returns value callers c))
    else s.setStage p (.returns value callers' c)

end System

variable [DecidableEq ι]

def systemNext (table : Word W) : SystemEvent W ι → System W ι E → Option (System W ι E)
  | .manage e, s =>
    (next K table e s.modules).map fun modules =>
      { s with modules := modules, log := s.log ++ e.lines table s.modules }
  | .call p c, s =>
    match s.stage p with
    | .user => some (s.setStage p (.calls (s.modules.kernel.mem (entry table c.number)) [] c))
    | _ => none
  | .step p, s =>
    match s.stage p with
    | .user => none
    | .calls a callers c => some (s.runFunction K V p a callers c)
    | .logged h callers c => some (s.runSaved K p h callers c)
    | .returns value callers c => some (s.runReturn p value callers c)
    | .oops _ => none

/-- No module is loaded and every process is outside the kernel. -/
def systemStart (k₀ : Kernel W) (e₀ : E) : System W ι E where
  modules := start k₀
  env := e₀
  stage := fun _ => .user
  log := []
  results := []

end Interceptor

end OperatingSystems
