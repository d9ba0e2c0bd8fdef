import Xv6.Param
import Xv6.Lib.Abortable

/-!
# The kernel thread of a process

The control flow of the kernel code a process runs, as programs over the events that matter for
how a process dies: transactions (`begin_op`/`end_op`), sleeplocks of inodes and buffers, spinlocks
(which switch interrupts off), the file descriptor table, the release of the address space, and the
change to ZOMBIE.  Branches that depend on data are choices, so every path of the source is a path
of the program; a sleeplock is named by the variable the source holds it in.

The abort handler is `exit`.  It is entered by `sys_exit`, by `usertrap` where it finds
`p->killed` set (`poll`), and by `kerneltrap`, which calls `exit(-1)` when an interrupt taken in
kernel mode finds `p->killed` set (a trap with the flag raised).
-/

namespace Xv6.Thread

open Abortable Abortable.Prog

/-- Sleeplocks, by the variable that names the inode or the buffer: `fip` is `f->ip`, `vip` is
`vma->inode`, `nip` is the `ip` of `namex`, `old` is the inode `dirlink` finds. -/
inductive Lock
  | ip | dp | cwd | fip | vip | nip | old
  | bp | indirect | bitmap | zeroed | head | lbuf | dbuf | to | frm
  deriving DecidableEq

/-- The atomic events of a kernel thread. -/
inductive Act
  | beginOp
  | endOp
  | acquiresleep (l : Lock)
  | releasesleep (l : Lock)
  | pushOff
  | popOff
  | intrOn
  | intrOff
  | setFd (fd : Fin NOFILE) (b : Bool)
  | isFd (fd : Fin NOFILE) (b : Bool)
  | closing (fd : Fin NOFILE)
  | freeing
  | newUvm
  | zombie
  deriving DecidableEq

/-- What a thread holds: operations begun and not ended, nested `push_off`s, sleeplocks, and
whether `p->uvm` has been released. -/
structure Res where
  depth : ℕ
  noff : ℕ
  held : List Lock
  freed : ℕ
  deriving DecidableEq

/-- A process as its kernel thread sees it.  `closed fd` counts the `fileclose` calls of `exit` on
the file in slot `fd`; `atExit` is the descriptor table when `exit` was first entered. -/
structure St where
  res : Res
  intr : Bool
  ofile : Fin NOFILE → Bool
  closed : Fin NOFILE → ℕ
  exits : ℕ
  atExit : Fin NOFILE → Bool
  zombie : Bool

abbrev P := Prog Act

/-! ### `bio.c`, `log.c` -/

/-- A panic the code checks for. -/
def mayPanic : P := opt panic

def acquiresleep (l : Lock) : P := act (.acquiresleep l)
def releasesleep (l : Lock) : P := act (.releasesleep l)
def acquire : P := act .pushOff
def release : P := act .popOff

def bread (b : Lock) : P := block [mayPanic, acquiresleep b]
def brelse (b : Lock) : P := releasesleep b

def logWrite : P := block [acquire, mayPanic, release]

def installTrans : P := loop (block [bread .lbuf, bread .dbuf, brelse .lbuf, brelse .dbuf])
def writeHead : P := block [bread .head, brelse .head]
def writeLog : P := loop (block [bread .to, bread .frm, brelse .frm, brelse .to])
def commit : P := opt (block [writeLog, writeHead, installTrans, writeHead])

def beginOp : P := act .beginOp
def endOp : P := block [act .endOp, mayPanic, opt commit]

/-! ### `fs.c` -/

def bzero : P := block [bread .zeroed, logWrite, brelse .zeroed]

def balloc : P :=
  block [loop (block [bread .bitmap, brelse .bitmap]),
    anyOf [block [bread .bitmap, logWrite, brelse .bitmap, bzero], panic]]

def bfree : P := block [bread .bitmap, mayPanic, logWrite, brelse .bitmap]

def iget : P := block [acquire, mayPanic, release]
def idup : P := block [acquire, release]

def ialloc : P :=
  block [loop (block [bread .bp, brelse .bp]),
    anyOf [block [bread .bp, logWrite, brelse .bp, iget], panic]]

def iupdate : P := block [bread .bp, logWrite, brelse .bp]

def ilock (v : Lock) : P :=
  block [mayPanic, acquiresleep v, opt (block [bread .bp, brelse .bp, mayPanic])]

def iunlock (v : Lock) : P := block [mayPanic, releasesleep v]

def itrunc : P :=
  block [loop bfree,
    opt (block [bread .indirect, loop bfree, brelse .indirect, bfree]), iupdate]

def iput (v : Lock) : P :=
  block [acquire,
    opt (block [acquiresleep v, release, itrunc, iupdate, releasesleep v, acquire]), release]

def iunlockput (v : Lock) : P := block [iunlock v, iput v]

def bmap : P :=
  anyOf [opt balloc,
    block [opt balloc, bread .indirect, opt (block [balloc, logWrite]), brelse .indirect], panic]

/-- `readi`, with the copy to user or kernel memory it makes of each block. -/
def readi (copy : P) : P := opt (loop (block [bmap, bread .bp, copy, brelse .bp]))

/-- `writei`, with the copy it makes of each block; a failed copy is not logged. -/
def writei (copy : P) : P :=
  opt (block [loop (block [bmap, bread .bp, copy, opt logWrite, brelse .bp]), iupdate])

def dirlookup : P := block [mayPanic, loop (block [readi skip, mayPanic]), opt iget]

def dirlink : P :=
  block [dirlookup,
    anyOf [iput .old, block [loop (block [readi skip, mayPanic]), writei skip, mayPanic]]]

/-- `namex`: rounds of the loop, then one of its exits (end of the path, without and with
`nameiparent`; not a directory; one level early; no such entry). -/
def namex : P :=
  block [anyOf [iget, idup], loop (block [ilock .nip, dirlookup, iunlockput .nip]),
    anyOf [skip, iput .nip, block [ilock .nip, iunlockput .nip], block [ilock .nip, iunlock .nip],
      block [ilock .nip, dirlookup, iunlockput .nip]]]

/-! ### `uvm.c` -/

def uvmCompletemap : P :=
  block [opt (block [ilock .vip, readi skip, iunlock .vip, mayPanic]), mayPanic]

/-- `copyin`, `copyout` and `copyinstr` complete the pages they meet. -/
def copyUser : P := loop (opt uvmCompletemap)

def vmafree : P := block [opt (block [beginOp, iput .vip, endOp]), acquire, release]

def uvmUnmap : P :=
  block [mayPanic,
    opt (block [beginOp, ilock .vip, loop (block [writei skip, mayPanic]), iunlock .vip, endOp]),
    mayPanic, opt vmafree]

/-- `uvm_free` of an address space under construction. -/
def uvmFree : P := block [loop uvmUnmap, mayPanic]

/-- `uvm_free(&p->uvm)`. -/
def uvmFreeOwn : P := block [loop uvmUnmap, act .freeing, mayPanic]

def uvmDup : P := block [mayPanic, opt (block [opt vmafree, loop uvmUnmap])]

def uvmGrowheap : P := opt uvmUnmap

/-! ### `pipe.c`, `console.c`, `file.c` -/

def pipeclose : P := block [acquire, release]
def piperead : P := block [acquire, loop copyUser, release]
def pipewrite : P := block [acquire, loop copyUser, release]
def consoleread : P := block [acquire, loop copyUser, release]
def consolewrite : P := loop copyUser

def filealloc : P := block [acquire, release]

def fileclose : P :=
  block [acquire, mayPanic, release,
    anyOf [skip, pipeclose, block [beginOp, iput .fip, endOp]]]

/-- `fileclose` of a file that has only been allocated: its type is `FD_NONE`. -/
def filecloseNew : P := block [acquire, mayPanic, release]

def pipealloc : P :=
  block [filealloc, filealloc, opt (block [opt filecloseNew, opt filecloseNew])]

def filestat : P := opt (block [ilock .fip, iunlock .fip, copyUser])

def fileread : P :=
  anyOf [skip, piperead, consoleread,
    block [ilock .fip, readi copyUser, iunlock .fip], panic]

def filewrite : P :=
  anyOf [skip, pipewrite, consolewrite,
    loop (block [beginOp, ilock .fip, writei copyUser, iunlock .fip, endOp]), panic]

/-! ### `proc.c`, `exec.c` -/

/-- `fork`: no process or no trapframe; `uvm_new` failed, after which `allocproc` has released the
child and `fork` goes on to a panic; or the copy under the child's lock. -/
def fork : P :=
  anyOf [skip, block [acquire, release, uvmDup, panic],
    block [acquire, uvmDup, mayPanic, release, acquire, release, acquire, release]]

def wait : P :=
  block [acquire, loop (block [acquire, release]),
    opt (block [acquire, copyUser, mayPanic, release]), release]

def kill : P := loop (block [acquire, release])

/-- `exec`: `bad` with the inode locked and a transaction open, and `bad` after they are gone. -/
def exec : P :=
  block [beginOp, namex,
    anyOf [endOp,
      block [ilock .ip, loop (readi skip),
        anyOf [block [uvmFree, iunlockput .ip, endOp],
          block [iunlockput .ip, endOp, opt (block [uvmCompletemap, mayPanic]), loop copyUser,
            anyOf [uvmFree, block [uvmFreeOwn, act .newUvm]]]]]]]

/-! ### `sysfile.c`, `sysproc.c` -/

def fdalloc : P :=
  anyOf ((List.finRange NOFILE).map fun fd => block [act (.isFd fd false), act (.setFd fd true)])

def fdclear : P := anyOf ((List.finRange NOFILE).map fun fd => act (.setFd fd false))

def sysDup : P := opt fdalloc
def sysRead : P := opt fileread
def sysWrite : P := block [loop (opt uvmCompletemap), opt filewrite]
def sysClose : P := opt (block [fdclear, fileclose])
def sysFstat : P := opt filestat

def sysLinkBad : P := block [ilock .ip, iupdate, iunlockput .ip, endOp]

def sysLink : P :=
  block [copyUser, copyUser,
    opt (block [beginOp, namex,
      anyOf [endOp,
        block [ilock .ip,
          anyOf [block [iunlockput .ip, endOp],
            block [iupdate, iunlock .ip, namex,
              anyOf [sysLinkBad,
                block [ilock .dp, opt dirlink, iunlockput .dp,
                  anyOf [sysLinkBad, block [iput .ip, endOp]]]]]]]]])]

def isdirempty : P := loop (block [readi skip, mayPanic])

def sysUnlinkBad : P := block [iunlockput .dp, endOp]

def sysUnlink : P :=
  block [copyUser,
    opt (block [beginOp, namex,
      anyOf [endOp,
        block [ilock .dp, opt dirlookup,
          anyOf [sysUnlinkBad,
            block [ilock .ip, mayPanic, opt isdirempty,
              anyOf [block [iunlockput .ip, sysUnlinkBad],
                block [writei skip, mayPanic, opt iupdate, iunlockput .dp, iupdate,
                  iunlockput .ip, endOp]]]]]]])]

/-- `create` when it returns an inode, which is locked then. -/
def createSome : P :=
  block [namex, ilock .dp, dirlookup,
    anyOf [block [iunlockput .dp, ilock .ip],
      block [ialloc, mayPanic, ilock .ip, iupdate,
        opt (block [iupdate, dirlink, dirlink, mayPanic]), dirlink, mayPanic,
        iunlockput .dp]]]

/-- `create` when it returns 0. -/
def createNone : P :=
  block [namex, opt (block [ilock .dp, dirlookup, iunlockput .dp, ilock .ip, iunlockput .ip])]

def sysOpen : P :=
  block [copyUser,
    opt (block [beginOp,
      anyOf [block [createNone, endOp], block [namex, endOp],
        block [namex, ilock .ip, iunlockput .ip, endOp],
        block [anyOf [createSome, block [namex, ilock .ip]],
          anyOf [block [iunlockput .ip, endOp],
            block [filealloc, opt filecloseNew, iunlockput .ip, endOp],
            block [filealloc, fdalloc, opt itrunc, iunlock .ip, endOp]]]]])]

/-- `sys_mkdir` and `sys_mknod`. -/
def sysMk : P :=
  block [beginOp, copyUser,
    anyOf [endOp, block [createNone, endOp], block [createSome, iunlockput .ip, endOp]]]

def sysChdir : P :=
  block [beginOp, copyUser,
    anyOf [endOp, block [namex, endOp],
      block [namex, ilock .ip,
        anyOf [block [iunlockput .ip, endOp], block [iunlock .ip, iput .cwd, endOp]]]]]

def sysExec : P := block [copyUser, loop (block [copyUser, copyUser]), opt exec]

def sysPipe : P :=
  block [pipealloc,
    anyOf [skip, block [opt (block [fdalloc, fdclear]), fileclose, fileclose],
      block [fdalloc, fdalloc, copyUser, copyUser],
      block [fdalloc, fdalloc, copyUser, opt copyUser, fdclear, fdclear, fileclose, fileclose]]]

def sysMunmap : P := block [mayPanic, opt uvmUnmap]
def sysSbrk : P := block [mayPanic, uvmGrowheap]
def sysSleep : P := block [acquire, release]

/-- `syscall`: any system call, or none when the number is unknown. -/
def syscall : P :=
  anyOf [skip, fork, abort, wait, sysPipe, sysRead, kill, sysExec, sysFstat, sysChdir, sysDup,
    sysSbrk, sysSleep, sysOpen, sysWrite, sysMk, sysUnlink, sysLink, sysClose, copyUser,
    sysMunmap]

/-- `usertrap` up to the return to user space: a system call, a page fault, a device or timer
interrupt. -/
def usertrap : P :=
  anyOf [block [poll, act .intrOn, syscall, poll, act .intrOff], block [uvmCompletemap, poll],
    block [poll, opt (block [acquire, release])]]

/-! ### `exit` -/

/-- One round of the loop of `exit` over the open files. -/
def exitFd (fd : Fin NOFILE) : P :=
  choice (act (.isFd fd false))
    (block [act (.isFd fd true), act (.closing fd), fileclose, act (.setFd fd false)])

/-- `exit` after its last file: the address space, the current directory, `wait_lock` and
`p->lock`. -/
def exitRelease : P := block [uvmFreeOwn, beginOp, iput .cwd, endOp, acquire, acquire]

/-- The loop over the open files, and what follows it up to the state change. -/
def exitFrom : List (Fin NOFILE) → P
  | [] => seq exitRelease (seq (act .zombie) panic)
  | fd :: fds => seq (exitFd fd) (exitFrom fds)

/-- The body of `exit`. -/
def exit : P := exitFrom (List.finRange NOFILE)

/-! ### The machine -/

/-- How a process has to be when it becomes a ZOMBIE. -/
structure Clean (s : St) : Prop where
  ops : s.res.depth = 0
  locks : s.res.held = []
  once : s.exits = 1
  files : ∀ fd, s.closed fd = if s.atExit fd then 1 else 0
  uvm : s.res.freed = 1

/-- The effect of an event on what the thread holds; `none` for one that panics or that the code
must not do there. -/
def Act.eff : Act → Res → Option Res
  | .beginOp, r => some { r with depth := r.depth + 1 }
  | .endOp, r => if 0 < r.depth then some { r with depth := r.depth - 1 } else none
  | .acquiresleep l, r => some { r with held := l :: r.held }
  | .releasesleep l, r => if l ∈ r.held then some { r with held := r.held.erase l } else none
  | .pushOff, r => some { r with noff := r.noff + 1 }
  | .popOff, r => if 0 < r.noff then some { r with noff := r.noff - 1 } else none
  | .freeing, r => if r.freed = 0 then some { r with freed := 1 } else none
  | .newUvm, r => some { r with freed := 0 }
  | _, r => some r

/-- The effect of an event. -/
def Act.exec : Act → St → Option St
  | .intrOn, s => some { s with intr := true }
  | .intrOff, s => some { s with intr := false }
  | .setFd fd b, s => some { s with ofile := Function.update s.ofile fd b }
  | .isFd fd b, s => if s.ofile fd = b then some s else none
  | .closing fd, s => some { s with closed := Function.update s.closed fd (s.closed fd + 1) }
  | .zombie, s => some { s with zombie := true }
  | a, s => (a.eff s.res).map fun r => { s with res := r }

/-- No panic: no lock released that is not held, no `end_op` without its `begin_op`, no file
closed again, no address space freed again; and a clean death. -/
def Act.safe : Act → St → Prop
  | .closing fd, s => s.closed fd = 0
  | .zombie, s => Clean s
  | a, s => (a.eff s.res).isSome

/-- The kernel thread: `exit` is the handler; an interrupt in kernel mode is taken while
interrupts are on and no spinlock is held, and is served with interrupts off. -/
def sem : Sem Act St where
  exec := Act.exec
  safe := Act.safe
  handler := exit
  enter s := { s with
    exits := s.exits + 1
    atExit := if s.exits = 0 then s.ofile else s.atExit }
  masked s := !s.intr || s.res.noff != 0
  trapped s := { s with intr := false }
  final s := s.zombie

/-- A thread in user space, about to trap into the kernel again and again, with the open files
`ofile`. -/
def start (ofile : Fin NOFILE → Bool) : Config Act St where
  stack := [loop usertrap]
  state := ⟨⟨0, 0, [], 0⟩, false, ofile, fun _ => 0, 0, fun _ => false, false⟩
  flag := false

end Xv6.Thread
