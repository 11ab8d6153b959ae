-- SUMMARY: Signal delivery (`signal.c`) and `sigreturn`: the handlers entered and the frames saved for them, and when the two are inverse.
import SC7.Mem.Vmem

/-!
# Signal handlers

On the way back to user mode the kernel saves the trap frame in a list of frames, one for each
handler that has not returned yet, and makes the trap frame enter the handler. `sigreturn` takes the
newest frame back. The frame is saved before the arguments and the stack of the handler are set up,
and `sigreturn` is a system call like any other, so its result goes to `a0`.
-/

namespace SC7.Signal

open SC7

/-- A trap frame: the registers named in `signal.c` (`pc` is `epc` or `era`) and the other 30 words.
`copytrapframe` copies all of them. -/
structure Trapframe where
  pc : UInt64
  ra : UInt64
  sp : UInt64
  a0 : UInt64
  a1 : UInt64
  a2 : UInt64
  rest : Fin 30 → UInt64

/-- `sigaction`; `sa_mask` is not read here. -/
structure SigAction where
  handler : UInt64
  flags : UInt32

/-- `signal_frame_t`. -/
structure Frame where
  signalNumber : Nat
  returnAddress : UInt64
  signalMask : UInt64
  tf : Trapframe

/-- What `is_valid_user_stack_addr` reads of a VMA. -/
structure Region where
  addr : UInt64
  stop : UInt64
  writable : Bool

/-- The fields of a thread and its process that the code below uses. -/
structure Task where
  tf : Trapframe
  sigSet : UInt64
  sigPending : UInt64
  sigaction : Nat → SigAction
  frames : List Frame
  altSp : UInt64
  altSize : UInt64
  currentSignal : Int
  signalInterrupted : Bool
  handlingSignal : Int
  cancelEnabled : Bool
  cancelRequested : Bool
  shouldExit : Bool
  /-- `thread_exit` has been called; it does not return. -/
  exited : Bool
  /-- The process is in state `ZOMBIE`. -/
  zombie : Bool
  killed : Nat
  stopped : Bool
  stopSignal : Nat
  continued : Bool
  sigTrapframe : Trapframe
  vma : List Region

def SIGSEGV : Nat := 11
def SIGCHLD : Nat := 17
def SIGCONT : Nat := 18
def SIGSTOP : Nat := 19
def SIGCANCEL : Nat := 32
def SIGRTMAX : Nat := 64
def SIG_DFL : UInt64 := 0
def SIG_IGN : UInt64 := 1
def SA_NODEFER : UInt32 := 0x08000000
def SA_ONSTACK : UInt32 := 0x08000000

/-- `sizeof(siginfo_t)`. -/
def siginfoSize : UInt64 := 72

/-- `sizeof(ucontext_t)`. -/
def ucontextSize : UInt64 := 176

def SIGTRAMPOLINE (arch : Arch) : UInt64 := UInt64.ofNat (MAXVA arch) - 0x10000000

def sigBit (sig : Nat) : UInt64 := 1 <<< UInt64.ofNat (sig - 1)

def alignDown16 (a : UInt64) : UInt64 := a &&& ~~~15

namespace Task

/-- Clears the bit of a pending signal. -/
def clearPending (t : Task) (sig : Nat) : Task :=
  { t with sigPending := t.sigPending &&& ~~~sigBit sig }

/-- The search of `check_pending_signals` over the signals that are left. -/
def pendingLoop : List Nat → UInt64 → Task → Nat × Task
  | [], _, t => (0, t)
  | sig :: sigs, pending, t =>
    if pending &&& sigBit sig ≠ 0 then
      if (t.sigaction sig).handler = SIG_IGN then
        let t := t.clearPending sig
        let pending := t.sigPending &&& ~~~t.sigSet
        if pending = 0 then (0, t) else pendingLoop sigs pending t
      else (sig, t)
    else pendingLoop sigs pending t

/-- `check_pending_signals`: the signal found, or 0. -/
def checkPendingSignals (t : Task) : Nat × Task :=
  if t.zombie then (0, t)
  else
    let pending := t.sigPending &&& ~~~t.sigSet
    if pending = 0 then (0, t) else pendingLoop (List.range' 1 SIGRTMAX) pending t

/-- `handle_signal`; the wake-up of joining threads is not modelled. -/
def handleSignal (t : Task) (sig : Nat) : Int × Task :=
  if t.zombie then (0, t.clearPending sig)
  else if sig = 0 ∨ SIGRTMAX < sig then (-1, t)
  else if sig = SIGCANCEL ∨ sig = SIGCANCEL + 1 then
    let t := if t.cancelEnabled then { t with cancelRequested := true, shouldExit := true } else t
    (0, t.clearPending sig)
  else if (t.sigaction sig).handler = SIG_IGN then (0, t.clearPending sig)
  else if (t.sigaction sig).handler = SIG_DFL then
    let t :=
      if sig = SIGSTOP then { t with stopped := true, stopSignal := sig }
      else if sig = SIGCONT then
        if t.stopped then { t with stopped := false, stopSignal := 0, continued := true } else t
      else if sig ≠ SIGCHLD then { t with killed := sig }
      else t
    (0, t.clearPending sig)
  else (0, t.clearPending sig)

/-- `is_valid_user_stack_addr`. -/
def validStackAddr (t : Task) (addr : UInt64) : Bool :=
  match t.vma.find? fun r => r.addr ≤ addr && addr < r.stop with
  | some r => r.writable
  | none => true

end Task

/-- What a delivery meets: whether `kalloc` and `kmalloc` give memory, and where `copyout` can write. -/
structure Env where
  kalloc : Bool
  kmalloc : Bool
  copyout : UInt64 → UInt64 → Bool

namespace Task

/-- `safe_write_user_stack`. -/
def safeWrite (env : Env) (t : Task) (addr size : UInt64) : Bool :=
  t.validStackAddr addr && env.copyout addr size

/-- The frame is put in front of the list; without memory the trap frame goes to the process. -/
def saveFrame (env : Env) (t : Task) (sig : Nat) : Task :=
  if env.kalloc && env.kmalloc then
    { t with frames := ⟨sig, t.tf.ra, t.sigSet, t.tf⟩ :: t.frames }
  else { t with sigTrapframe := t.tf }

/-- The stack for the handler: at `sp`, or at the end of the alternate stack. -/
def handlerStack (t : Task) (sp need : UInt64) : Option UInt64 :=
  if t.validStackAddr sp then some sp
  else if t.altSp ≠ 0 ∧ need ≤ t.altSize then some (alignDown16 (t.altSp + t.altSize - need))
  else none

/-- The arguments and the stack of the handler; `false` is a return of 0 from the middle. -/
def setArgs (env : Env) (t : Task) (sig : Nat) : Bool × Task :=
  let t := { t with tf := { t.tf with a0 := UInt64.ofNat sig } }
  if (t.sigaction sig).flags ≠ 0 then
    match t.handlerStack (t.tf.sp - siginfoSize - ucontextSize) (siginfoSize + ucontextSize) with
    | none => (false, { t with killed := SIGSEGV })
    | some sp =>
      if t.safeWrite env sp siginfoSize then
        if t.safeWrite env (sp + siginfoSize) ucontextSize then
          (true, { t with tf := { t.tf with a1 := sp, a2 := sp + siginfoSize, sp := sp } })
        else (false, t)
      else (false, t)
  else
    match t.handlerStack (alignDown16 (t.tf.sp - 128)) 128 with
    | none => (false, { t with killed := SIGSEGV })
    | some sp => (true, { t with tf := { t.tf with a1 := 0, a2 := 0, sp := sp } })

/-- The trap frame enters the handler. -/
def enterHandler (arch : Arch) (t : Task) (sig : Nat) : Int × Task :=
  let act := t.sigaction sig
  if act.handler < 0x1000 then (0, t)
  else
    let sp := if act.flags &&& SA_ONSTACK ≠ 0 ∧ t.altSp ≠ 0 then t.altSp + t.altSize else t.tf.sp
    let sigSet := if act.flags &&& SA_NODEFER = 0 then t.sigSet ||| sigBit sig else t.sigSet
    (1, { t with
      tf := { t.tf with pc := act.handler, ra := SIGTRAMPOLINE arch, sp }
      sigSet
      currentSignal := sig
      signalInterrupted := true
      handlingSignal := sig
      exited := t.exited || t.shouldExit })

/-- `check_and_handle_signals`. -/
def checkAndHandleSignals (arch : Arch) (env : Env) (t : Task) : Int × Task :=
  if t.zombie then (0, t)
  else if t.cancelEnabled && t.cancelRequested then (1, { t with shouldExit := true, exited := true })
  else if t.shouldExit then (1, { t with exited := true })
  else
    let (sig, t) := t.checkPendingSignals
    if sig = 0 then (0, t)
    else
      let (handled, t) := t.handleSignal sig
      if handled = 0 ∧ (t.sigaction sig).handler ≠ 0 then
        let (ok, t) := (t.saveFrame env sig).setArgs env sig
        if ok then t.enterHandler arch sig else (0, t)
      else (0, t)

/-- `restore_signal_context`. -/
def restoreSignalContext (t : Task) : Int × Task :=
  if t.zombie then (-1, t)
  else
    match t.frames with
    | [] => (-1, t)
    | frame :: frames =>
      let t := { t with tf := frame.tf, sigSet := frame.signalMask, frames }
      if t.shouldExit then (0, { t with exited := true })
      else (0, { t with currentSignal := 0, signalInterrupted := false, handlingSignal := -1 })

/-- `sys_sigreturn`. -/
def sysSigreturn (t : Task) : Int × Task :=
  if t.frames.isEmpty then (-1, t)
  else
    let (ret, t) := t.restoreSignalContext
    if ret < 0 then (-1, t) else (0, { t with handlingSignal := -1, currentSignal := 0 })

/-- `syscall()` with `SYS_sigreturn` in `a7`: the result of the call goes to `a0`. -/
def syscallSigreturn (t : Task) : Task :=
  let (ret, t) := t.sysSigreturn
  { t with tf := { t.tf with a0 := (Int64.ofInt ret).toUInt64 } }

end Task

end SC7.Signal
