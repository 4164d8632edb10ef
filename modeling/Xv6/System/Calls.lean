import Xv6.Sched.Lifecycle
import Xv6.System.Ftable
import Xv6.Vm.Exec

/-! The kernel as one machine: the process table, the open files and physical memory, and the system
calls that work on all three. -/

namespace Xv6.System.Calls
open Lib.Bytes Sched.Table Sched.Passes Vm.Memory Vm.Pagetable Vm.Exec Ftable

/-- The fields of struct proc that hold the memory of a process. -/
structure Task where
  pagetable : Option Nat
  sz : Nat
  trapframe : Option Nat
  name : Buffer 16

structure World where
  table : Kernel
  task : Slot → Task
  files : Files
  mem : Mem
  kernelPagetable : Option Nat
  kstack : Slot → Option Nat
  queue : Fin 3 → Option Nat

abbrev Sys := EStateM String World

/-- A function of vm.c or kalloc.c, which sees memory only. -/
def onMem {A : Type} (prog : VM A) : Sys A := fun w =>
  match prog w.mem with
  | .ok a s => .ok a { w with mem := s }
  | .error message s => .error message { w with mem := s }

def World.setTask (w : World) (i : Slot) (change : Task → Task) : World :=
  { w with task := Function.update w.task i (change (w.task i)) }

def setTask (i : Slot) (change : Task → Task) : Sys Unit := modify (·.setTask i change)

def setTable (change : Kernel → Kernel) : Sys Unit := modify fun w => { w with table := change w.table }

def setFiles (files : Files) : Sys Unit := modify fun w => { w with files := files }

/-- A pointer that the kernel follows without looking: address 0 is not mapped. -/
def follow (pointer : Option Nat) : Sys Nat :=
  match pointer with
  | some x => pure x
  | none => throw "kerneltrap"

section
variable [Layout]

def freePage : Option Nat → Sys Unit
  | some x => onMem (kfree x)
  | none => pure ()

def freeproc (p : Slot) : Sys Unit := do
  let w ← get
  freePage (w.task p).trapframe
  setTask p fun t => { t with trapframe := none }
  match (w.task p).pagetable with
  | some r => onMem (procFreepagetable r (w.task p).sz)
  | none => pure ()
  setTask p fun t => { t with pagetable := none, sz := 0, name := Str.setByte t.name 0 0 }
  setTable (·.modify p Proc.freeproc)

/-- The pid and the state that allocproc gives to a slot. -/
def claim (k : Kernel) (p : Slot) : Kernel :=
  { k with nextpid := wrap32 (k.nextpid + 1) }.modify p (fun q => { q with pid := k.nextpid, state := .used })

def allocproc : Sys (Option Slot) := do
  let w ← get
  match w.table.findUnused with
  | none => pure none
  | some p => do
      setTable (claim · p)
      match ← onMem kalloc with
      | none => do
          freeproc p
          pure none
      | some trapframe => do
          setTask p fun t => { t with trapframe := some trapframe }
          match ← onMem (procPagetable trapframe) with
          | none => do
              freeproc p
              pure none
          | some r => do
              setTask p fun t => { t with pagetable := some r }
              pure (some p)

def dupFd (p np : Slot) (fd : Fd) : Sys Unit := do
  let w ← get
  match w.files.ofile (p, fd) with
  | none => pure ()
  | some f =>
      match w.files.filedup f with
      | .error message => throw message
      | .ok files => setFiles (files.setFd np fd (some f))

def a0 : Nat := 112
def sizeofTrapframe : Nat := 36 * 8

/-- The trapframe of a child: struct trapframe as its parent has it, but for the result of fork. -/
def forkRegs (frame source : Page) : Page :=
  setLE (fun i => if i.val < sizeofTrapframe then source i else frame i) a0 8 0

omit [Layout] in
theorem byteAt_forkRegs (frame source : Page) (i : Nat) (low : i < sizeofTrapframe) :
    byteAt (forkRegs frame source) i = byteAt (setLE source a0 8 0) i := by
  simp only [byteAt, forkRegs, setLE, if_pos low]

section Fork
variable {m : Type → Type} [Monad m] (lift : {A : Type} → Sys A → m A) (dupCwd : Slot → m Unit)

/-- The end of fork; t has the fields of the parent. -/
def forkRest (p np : Slot) (t : Task) (source target : Nat) : m (Option Slot) := do
  lift (onMem (modify fun s => s.setPage target (forkRegs (s.page target) (s.page source))))
  lift (forM (List.finRange NOFILE) (dupFd p np))
  dupCwd np
  lift (setTask np fun u => { u with name := Str.safestrcpy u.name t.name })
  lift (setTable (·.modify np (fun q => { q with parent := some p, state := .runnable })))
  pure (some np)

def forkCopy (p np : Slot) : m (Option Slot) := do
  let w ← lift get
  let old ← lift (follow (w.task p).pagetable)
  let new ← lift (follow (w.task np).pagetable)
  if ← lift (onMem (uvmcopy old new (w.task p).sz)) then do
    lift (setTask np fun t => { t with sz := (w.task p).sz })
    let source ← lift (follow (w.task p).trapframe)
    let target ← lift (follow (w.task np).trapframe)
    forkRest lift dupCwd p np (w.task p) source target
  else do
    lift (freeproc np)
    pure none

/-- fork, where what works on the world goes through lift and dupCwd gives the child its working directory. -/
def forkIn (p : Slot) : m (Option Slot) := do
  match ← lift allocproc with
  | none => pure none
  | some np => forkCopy lift dupCwd p np

end Fork

def fork : Slot → Sys (Option Slot) := forkIn (fun prog => prog) fun _ => pure ()

def wakeSleepers (self : Slot) : Option Chan → Sys Unit
  | some chan => setTable (·.wakeup (some self) (some chan))
  | none => pure ()

def closeFile (self : Slot) (f : FileId) : Sys Unit := do
  let w ← get
  match w.files.fileclose f with
  | .error message => throw message
  | .ok (closing, files) => do
      setFiles files
      wakeSleepers self closing.wake
      freePage closing.free

def closeFd (p : Slot) (fd : Fd) : Sys Unit := do
  let w ← get
  match w.files.ofile (p, fd) with
  | none => pure ()
  | some f => do
      closeFile p f
      let w ← get
      setFiles (w.files.setFd p fd none)

def exit (p : Slot) (status : Int) (msg : Buffer 32) : Sys Unit := do
  let w ← get
  if p = w.table.initproc then throw "init exiting"
  else do
    forM (List.finRange NOFILE) (closeFd p)
    let w ← get
    match Sched.Lifecycle.exit w.table p status msg with
    | .error message => throw message
    | .ok table => setTable fun _ => table

/-- The buffer that argstr leaves: the bytes it stored over what was there. -/
def overlay {size : Nat} (buffer : Buffer size) (bytes : List Byte) : Buffer size :=
  fun i => bytes.getD i.val (buffer i)

/-- sys_exit: the result of argstr is ignored, and stack is what the array msg held. -/
def sysExit (p : Slot) (status : Int) (msg : Nat) (stack : Buffer 32) : Sys Unit := do
  let w ← get
  let r ← follow (w.task p).pagetable
  let (bytes, _) ← onMem (copyinstr r msg 32)
  exit p status (overlay stack bytes)

def intBytes (x : Int) : List Byte :=
  (List.range 4).map fun i => BitVec.ofNat 8 ((x % 2 ^ 32).toNat / 256 ^ i)

def copyoutIf (r addr : Nat) (bytes : List Byte) : Sys Bool :=
  if addr = 0 then pure true else onMem (copyout r addr bytes)

def wait (p : Slot) (addr dst : Nat) : Sys (Option Int) := do
  let w ← get
  match slots.find? fun pp => decide ((w.table.proc pp).parent = some p ∧ (w.table.proc pp).state = .zombie) with
  | some pp => do
      let r ← follow (w.task p).pagetable
      if ← copyoutIf r addr (intBytes (w.table.proc pp).xstate) then
        if ← copyoutIf r dst (List.ofFn (w.table.proc pp).exitMsg) then
          freeproc pp
          pure (some (w.table.proc pp).pid)
        else pure (some (-1))
      else pure (some (-1))
  | none => do
      if (∀ pp ∈ slots, (w.table.proc pp).parent ≠ some p) ∨ (w.table.proc p).killed then pure (some (-1))
      else do
        setTable (·.modify p (fun q => { q with chan := some (.proc p), state := .sleeping }))
        pure none

/-- growproc, with sz + n in 64 bits; false is -1. -/
def growproc (p : Slot) (n : Int) : Sys Bool := do
  let w ← get
  let sz := (w.task p).sz
  let newsz := (((sz : Int) + n) % 2 ^ 64).toNat
  if 0 < n then do
    let r ← follow (w.task p).pagetable
    let grown ← onMem (uvmalloc r sz newsz PTE_W)
    if grown = 0 then pure false
    else do
      setTask p fun t => { t with sz := grown }
      pure true
  else if n < 0 then do
    let r ← follow (w.task p).pagetable
    let shrunk ← onMem (uvmdealloc r sz newsz)
    setTask p fun t => { t with sz := shrunk }
    pure true
  else do
    setTask p fun t => { t with sz := sz }
    pure true

/-- The registers that exec sets in the trapframe: a1, epc and sp. -/
def execRegs (frame : Page) (image : Image) : Page :=
  setLE (setLE (setLE frame 120 8 image.sp) 24 8 image.entry) 48 8 image.sp

def lastElement (path : List Byte) : List Byte :=
  (path.reverse.takeWhile fun b => decide (b ≠ 0x2f)).reverse

def MAXPATH : Nat := 128

/-- The calls that exec makes to the log and the inode layer. -/
inductive Event where
  | beginOp
  | namei (found : Bool)
  | ilock
  | iunlockput
  | endOp
  deriving DecidableEq

/-- The end of exec: the process, whose fields were t, has the new image and the old one is freed. -/
def commit (p : Slot) (path : List Byte) (t : Task) (trapframe : Nat) (image : Image) : Sys Int := do
  let old ← follow t.pagetable
  onMem (modify fun s => s.setPage trapframe (execRegs (s.page trapframe) image))
  setTask p fun t => { t with
    pagetable := some image.pagetable
    sz := image.sz
    name := Str.safestrcpy t.name (overlay (fun _ : Fin MAXPATH => 0) (lastElement path)) }
  onMem (procFreepagetable old t.sz)
  pure image.argc

omit [Layout] in
theorem onMem_bind {A B : Type} (prog : VM A) (next : A → VM B) :
    onMem (prog >>= next) = onMem prog >>= fun a => onMem (next a) := by
  funext w
  cases outcome : prog w.mem with
  | ok a s | error e s => simp only [onMem, Bind.bind, EStateM.bind, outcome]

theorem buildImage_onMem (checked : Bool) (trapframe : Nat) (ip : Inode) (argv : List Nat) :
    buildImage (fun prog => onMem prog) (pure ()) checked trapframe ip argv =
      onMem (buildImage (fun prog => prog) (pure ()) checked trapframe ip argv) := by
  unfold buildImage
  simp only
  split_ifs with truncated magic
  · rfl
  · rfl
  · rw [onMem_bind]
    refine bind_congr fun result => ?_
    cases result with
    | none => rfl
    | some pagetable =>
      simp only
      rw [onMem_bind]
      refine bind_congr fun (sz, loaded) => ?_
      cases loaded with
      | true => rfl
      | false =>
        simp only [Bool.false_eq_true, if_false, onMem_bind]
        rfl

/-- exec of the inode that namei found, -1 if it found none. What works on the world goes through lift; record is told
of the calls to the log and the inode layer. -/
def execIn {m : Type → Type} [Monad m] (lift : {A : Type} → Sys A → m A) (record : Event → m Unit) (checked : Bool)
    (p : Slot) (path : List Byte) (ip : Option Inode) (argv : List Nat) : m Int := do
  record .beginOp
  record (.namei ip.isSome)
  match ip with
  | none => do
      record .endOp
      pure (-1)
  | some ip => do
      record .ilock
      let w ← lift get
      let trapframe ← lift (follow (w.task p).trapframe)
      let letGo := do
        record .iunlockput
        record .endOp
      match ← buildImage (fun prog => lift (onMem prog)) letGo checked trapframe ip argv with
      | none => pure (-1)
      | some image => lift (commit p path (w.task p) trapframe image)

def exec : Slot → List Byte → Option Inode → List Nat → Sys Int :=
  execIn (fun prog => prog) (fun _ => pure ()) false

/-- sys_exec; namei is what the file system answers. -/
def sysExec (p : Slot) (upath uargv : Nat) (namei : List Byte → Option Inode) : Sys Int := do
  let w ← get
  let r ← follow (w.task p).pagetable
  let (path, ok) ← onMem (copyinstr r upath MAXPATH)
  if ok then do
    let (argv, complete) ← onMem (fetchArgs r (w.task p).sz uargv MAXARG 0 [])
    let result ← if complete then exec p path (namei path) argv else pure (-1)
    forM argv fun x => onMem (kfree x)
    pure result
  else pure (-1)

/-- pipealloc: the two ends, none for -1. -/
def pipealloc (self : Slot) : Sys (Option (FileId × FileId)) := do
  let w ← get
  match w.files.filealloc with
  | (none, _) => pure none
  | (some rf, files) => do
      setFiles files
      match files.filealloc with
      | (none, _) => do
          closeFile self rf
          pure none
      | (some wf, files) => do
          setFiles files
          match ← onMem kalloc with
          | none => do
              closeFile self rf
              closeFile self wf
              pure none
          | some x => do
              let w ← get
              setFiles (w.files.openPipe rf wf x (fun i => byteAt (w.mem.page x) (24 + i.val)))
              pure (some (rf, wf))

def sysPipe (p : Slot) (fdarray : Nat) : Sys Bool := do
  match ← pipealloc p with
  | none => pure false
  | some (rf, wf) => do
      let w ← get
      match w.files.fdalloc p rf with
      | (none, _) => do
          closeFile p rf
          closeFile p wf
          pure false
      | (some fd0, files) => do
          setFiles files
          match files.fdalloc p wf with
          | (none, _) => do
              setFiles (files.setFd p fd0 none)
              closeFile p rf
              closeFile p wf
              pure false
          | (some fd1, files) => do
              setFiles files
              let r ← follow (w.task p).pagetable
              let copied ← onMem (do
                if ← copyout r fdarray (intBytes fd0.val) then copyout r ((fdarray + 4) % 2 ^ 64) (intBytes fd1.val)
                else pure false)
              if copied then pure true
              else do
                setFiles ((files.setFd p fd0 none).setFd p fd1 none)
                closeFile p rf
                closeFile p wf
                pure false

def sysClose (p : Slot) (fd : Int) : Sys Bool := do
  let w ← get
  if bound : 0 ≤ fd ∧ fd.toNat < NOFILE then
    match w.files.ofile (p, ⟨fd.toNat, bound.2⟩) with
    | none => pure false
    | some f => do
        setFiles (w.files.setFd p ⟨fd.toNat, bound.2⟩ none)
        closeFile p f
        pure true
  else pure false

def sysDup (p : Slot) (fd : Int) : Sys (Option Fd) := do
  let w ← get
  if bound : 0 ≤ fd ∧ fd.toNat < NOFILE then
    match w.files.ofile (p, ⟨fd.toNat, bound.2⟩) with
    | none => pure none
    | some f =>
        match w.files.fdalloc p f with
        | (none, _) => pure none
        | (some fd', files) =>
            match files.filedup f with
            | .error message => throw message
            | .ok files => do
                setFiles files
                pure (some fd')
  else pure none

/-- The file table in sys_open, once the inode is there; device tells its type. None is -1. -/
def openFile (p : Slot) (device readable writable : Bool) : Sys (Option Fd) := do
  let w ← get
  match w.files.filealloc with
  | (none, _) => pure none
  | (some f, files) => do
      setFiles files
      match files.fdalloc p f with
      | (none, _) => do
          closeFile p f
          pure none
      | (some fd, files) => do
          setFiles (files.setFile f ⟨if device then .device else .inode, (files.ftable f).ref, readable, writable⟩)
          pure (some fd)

/-- get_cfs_stats for a caller whose page table the code does not use; false is -1. -/
def getCfsStats (add : Nat) (pid : Int) : Sys Bool := do
  let w ← get
  match w.table.findPid pid with
  | none => pure false
  | some i =>
      if MAXVA ≤ add then pure false
      else do
        let r ← follow (w.task i).pagetable
        onMem (copyout r add ([(w.table.proc i).cfsPriority, (w.table.proc i).rtime, (w.table.proc i).stime,
          (w.table.proc i).retime].flatMap intBytes))

def onTable : Sched.Lifecycle.Op → Bool
  | .fork _ _ | .exit _ _ _ | .wait _ _ | .timer .user _ => false
  | _ => true

/-- What can happen next; the process that makes a call is its first argument. -/
inductive Op where
  | sched (op : Sched.Lifecycle.Op) (plain : onTable op = true)
  | timer (p : Slot)
  | killed (p : Slot)
  | fork (p : Slot)
  | exec (p : Slot) (upath uargv : Nat) (namei : List Byte → Option Inode)
  | sbrk (p : Slot) (n : BitVec 32)
  | exit (p : Slot) (status : Int) (msg : Nat) (stack : Buffer 32)
  | wait (p : Slot) (addr dst : Nat)
  | pipe (p : Slot) (fdarray : Nat)
  | close (p : Slot) (fd : Int)
  | dup (p : Slot) (fd : Int)
  | openFile (p : Slot) (device readable writable : Bool)
  | cfsStats (p : Slot) (add : Nat) (pid : Int)
  | store (p : Slot) (va : Nat) (bytes : List Byte)
  | trap (p : Slot) (regs : Page)

def Op.caller : Op → Option Slot
  | .sched op _ => op.caller
  | .timer p | .killed p | .fork p | .exec p _ _ _ | .sbrk p _ | .exit p _ _ _ | .wait p _ _ | .pipe p _ | .close p _
  | .dup p _ | .openFile p _ _ _ | .cfsStats p _ _ | .store p _ _ | .trap p _ => some p

/-- The end of usertrap for a process that has been killed. -/
def exitKilled (p : Slot) : Sys Unit := do
  let w ← get
  exit p (-1) (w.table.proc p).exitMsg

def timer (p : Slot) : Sys Unit := do
  let w ← get
  if (w.table.proc p).killed then do
    setTable (clockintr · (some p))
    exitKilled p
  else setTable (usertrapTimer · p)

/-- A store by the user program, or a call that copies to its caller. -/
def store (p : Slot) (va : Nat) (bytes : List Byte) : Sys Unit := do
  let w ← get
  let r ← follow (w.task p).pagetable
  let _ ← onMem (copyout r va bytes)

def saveRegs (p : Slot) (regs : Page) : Sys Unit := do
  let w ← get
  let trapframe ← follow (w.task p).trapframe
  onMem (modify (·.setPage trapframe regs))

def perform : Op → Sys Unit
  | .sched op _ => do
      let w ← get
      match Sched.Lifecycle.perform w.table op with
      | some table => setTable fun _ => table
      | none => throw "panic"
  | .timer p => timer p
  | .killed p => do
      let w ← get
      if (w.table.proc p).killed then exitKilled p else pure ()
  | .fork p => do let _ ← fork p
  | .exec p upath uargv namei => do let _ ← sysExec p upath uargv namei
  | .sbrk p n => do let _ ← growproc p n.toInt
  | .exit p status msg stack => sysExit p status msg stack
  | .wait p addr dst => do let _ ← wait p addr dst
  | .pipe p fdarray => do let _ ← sysPipe p fdarray
  | .close p fd => do let _ ← sysClose p fd
  | .dup p fd => do let _ ← sysDup p fd
  | .openFile p device readable writable => do let _ ← openFile p device readable writable
  | .cfsStats _ add pid => do let _ ← getCfsStats add pid
  | .store p va bytes => store p va bytes
  | .trap p regs => saveRegs p regs

/-- One operation by a running process, or by the scheduler. -/
structure Steps (w : World) (op : Op) (w' : World) : Prop where
  running : ∀ p, op.caller = some p → (w.table.proc p).state = .running
  performed : perform op w = .ok () w'

end

end Xv6.System.Calls
