import Xv6.Param
import Xv6.Lib.Bytes
import Xv6.Lib.Redo

/-!
# The redo log (`kernel/log.c`)

The state of the log is the disk, the contents of the buffer cache over it (`buf b` is what
`bread` returns for block `b`), the pins `log_write` takes on buffers, and `struct log`.  The
in-memory header `log.lh` is the list of its block numbers, so `log.lh.n` is its length.

`bwrite` is the only operation that changes the disk; `trace` lists the block writes in program
order, so that a crash between two of them leaves the disk after a prefix of the trace.
-/

namespace Xv6

open Bytes Redo

/-- The data of a disk block, `uchar data[BSIZE]`. -/
abbrev Block := ℕ → Byte

/-- `struct log`, without its lock and its device number. -/
structure Log where
  start : ℕ
  size : ℕ
  outstanding : ℤ
  committing : Bool
  lh : List ℕ
  deriving DecidableEq

/-- The disk, the buffer cache over it and the log. -/
structure LogState where
  disk : ℕ → Block
  buf : ℕ → Block
  pins : ℕ → ℤ
  trace : List (ℕ × Block)
  log : Log

namespace LogState

/-- `bread`: the contents of a block, through the cache. -/
def bread (s : LogState) (b : ℕ) : Block := s.buf b

/-- Fill the buffer of block `b` with `data` and `bwrite` it. -/
def bwrite (s : LogState) (b : ℕ) (data : Block) : LogState :=
  { s with
    disk := Function.update s.disk b data
    buf := Function.update s.buf b data
    trace := s.trace ++ [(b, data)] }

def bpin (s : LogState) (b : ℕ) : LogState :=
  { s with pins := Function.update s.pins b (s.pins b + 1) }

def bunpin (s : LogState) (b : ℕ) : LogState :=
  { s with pins := Function.update s.pins b (s.pins b - 1) }

end LogState

/-! ### The header block -/

/-- Store the entries `block[i], block[i + 1], …` of a `struct logheader`. -/
def putBlocks (i : ℕ) : List ℕ → Block → Block
  | [], hb => hb
  | b :: bs, hb => putBlocks (i + 1) bs (storeW hb (4 + 4 * i) (BitVec.ofNat 32 b))

/-- `*hb = lh` as `write_head` does it: `n` and the first `n` entries. -/
def putHeader (hb : Block) (lh : List ℕ) : Block :=
  putBlocks 0 lh (storeW hb 0 (BitVec.ofNat 32 lh.length))

/-- `lh->n`, a signed `int`. -/
def headerN (hb : Block) : ℤ := (loadW 32 hb 0).toInt

/-- The entries `read_head` copies: none when `n` is negative. -/
def getHeader (hb : Block) : List ℕ :=
  (List.range (headerN hb).toNat).map fun i => (loadW 32 hb (4 + 4 * i)).toNat

/-! ### The operations -/

/-- The loop of `write_log`: copy the cached block `b` to the log block of `tail`. -/
def writeLogFrom (tail : ℕ) : List ℕ → LogState → LogState
  | [], s => s
  | b :: bs, s => writeLogFrom (tail + 1) bs (s.bwrite (s.log.start + tail + 1) (s.bread b))

/-- `write_log`: copy modified blocks from the cache to the log. -/
def writeLog (s : LogState) : LogState := writeLogFrom 0 s.log.lh s

/-- `write_head`: write the in-memory header to disk; the point at which a transaction commits. -/
def writeHead (s : LogState) : LogState :=
  s.bwrite s.log.start (putHeader (s.bread s.log.start) s.log.lh)

/-- `read_head`: read the header from disk into memory. -/
def readHead (s : LogState) : LogState :=
  { s with log := { s.log with lh := getHeader (s.bread s.log.start) } }

/-- The loop of `install_trans`: copy the log block of `tail` to its home `b`. -/
def installTransFrom (recovering : Bool) (tail : ℕ) : List ℕ → LogState → LogState
  | [], s => s
  | b :: bs, s =>
    let s := s.bwrite b (s.bread (s.log.start + tail + 1))
    installTransFrom recovering (tail + 1) bs (if recovering then s else s.bunpin b)

/-- `install_trans`: copy committed blocks from the log to their home location. -/
def installTrans (recovering : Bool) (s : LogState) : LogState :=
  installTransFrom recovering 0 s.log.lh s

/-- `log.lh.n = 0`. -/
def clearLh (s : LogState) : LogState := { s with log := { s.log with lh := [] } }

/-- `recover_from_log`. -/
def recoverFromLog (s : LogState) : LogState :=
  writeHead (clearLh (installTrans true (readHead s)))

/-- `commit`. -/
def commit (s : LogState) : LogState :=
  if 0 < s.log.lh.length then
    writeHead (clearLh (installTrans false (writeHead (writeLog s))))
  else s

/-- `log_write(b)` for a buffer whose data the caller has set to `data`.  `none` is the panic
"too big a transaction" or "log_write outside of trans"; a block that is already in the header
is absorbed. -/
def logWrite (s : LogState) (b : ℕ) (data : Block) : Option LogState :=
  let s := { s with buf := Function.update s.buf b data }
  if LOGSIZE ≤ s.log.lh.length ∨ s.log.size ≤ s.log.lh.length + 1 then none
  else if s.log.outstanding < 1 then none
  else if b ∈ s.log.lh then some s
  else
    let s := s.bpin b
    some { s with log := { s.log with lh := s.log.lh ++ [b] } }

/-- One pass through the loop of `begin_op`; `none` is going to sleep on the log. -/
def beginOp (s : LogState) : Option LogState :=
  if s.log.committing then none
  else if (LOGSIZE : ℤ) < s.log.lh.length + (s.log.outstanding + 1) * MAXOPBLOCKS then none
  else some { s with log := { s.log with outstanding := s.log.outstanding + 1 } }

/-- `end_op`; `none` is the panic "log.committing". -/
def endOp (s : LogState) : Option LogState :=
  let s := { s with log := { s.log with outstanding := s.log.outstanding - 1 } }
  if s.log.committing then none
  else if s.log.outstanding = 0 then
    let s := commit { s with log := { s.log with committing := true } }
    some { s with log := { s.log with committing := false } }
  else some s

end Xv6
