import Libdane.Filesystem.Encodings

/-!
# Path normalisation

The function scans the input once and rewrites it into the output buffer. Pointers are addresses.
The input and the output are `restrict` pointers, so they live in two memories, each of them
defined only where the program may touch it.
-/

namespace Libdane

open ByteMachine ByteMachine.Exec

/-- `PTR_DIFF`, a difference of `uptr` values. -/
def ptrDiff (p q : Nat) : Nat := (p + 2 ^ 64 - q) % 2 ^ 64

/-- On POSIX no path has a prefix. -/
def platformFilepathEndOfPrefix (path : Nat) : Nat := path

def platformWriteCharTo (dst : Mem) (dest : Nat) (src : Mem) (start : Nat) : Exec (UInt8 × Mem) :=
  libdUtf8WriteChar dst dest src start

/-- The positions that the function moves, and the output it has written. -/
structure Cursor where
  dst : Mem
  writePos : Nat
  scanPos : Nat

/-- What the function is given, apart from the output buffer's bytes. -/
structure NormalizeArgs where
  src : Mem
  outPath : Nat
  outLen : Nat
  inputPath : Nat

structure NormalizeReturn where
  result : LibdResult
  dst : Mem

/-- `PTR_EQ(scan_pos, path) || scan_pos[-1] == PATH_SEPARATOR`. -/
def behindSatisfied (src : Mem) (path scanPos : Nat) : Exec Bool :=
  if scanPos == path then ret true
  else do
    let before ← src.loadBefore scanPos
    ret (before == pathSeparator)

def foundRelativeRef (src : Mem) (path scanPos : Nat) : Exec Bool := do
  let behind ← behindSatisfied src path scanPos
  let one ← src.load (scanPos + 1)
  ret (behind && (one == pathSeparator || one == nullTerminator))

def foundParentRef (src : Mem) (path scanPos : Nat) : Exec Bool := do
  let one ← src.load (scanPos + 1)
  if one == nullTerminator then ret false
  else do
    let behind ← behindSatisfied src path scanPos
    let two ← src.load (scanPos + 2)
    ret (behind && one == dot && (two == pathSeparator || two == nullTerminator))

/-- `while (scan_pos[1] == PATH_SEPARATOR) scan_pos += 1`. -/
def skipSeparatorsBody (src : Mem) (scanPos : Nat) : Exec (Nat ⊕ Nat) := do
  let one ← src.load (scanPos + 1)
  ret (if one == pathSeparator then .inl (scanPos + 1) else .inr scanPos)

/-- `while (write_pos[-1] != PATH_SEPARATOR && write_pos > path_start) write_pos -= 1`. The bound is
a position of the input. -/
def dropNameBody (dst : Mem) (pathStart writePos : Nat) : Exec (Nat ⊕ Nat) := do
  let before ← dst.loadBefore writePos
  ret (if before != pathSeparator && pathStart < writePos then .inl (writePos - 1)
    else .inr writePos)

/-- How the `switch` ends: at `write_char`, by `continue` or by returning `libd_invalid_path`. -/
inductive SwitchExit where
  | writeChar (scanPos : Nat)
  | continueLoop (c : Cursor)
  | invalidPath

/-- The `switch` of the main loop. -/
def normalizeSwitch (args : NormalizeArgs) (fuel writePathStart : Nat) (c : Cursor) (byte : UInt8) :
    Exec SwitchExit :=
  if byte == pathSeparator then do
    let scanPos ← loop (skipSeparatorsBody args.src) fuel c.scanPos
    ret (.writeChar scanPos)
  else if byte == dot then do
    let relative ← foundRelativeRef args.src args.inputPath c.scanPos
    if relative then ret (.continueLoop { c with scanPos := c.scanPos + 2 })
    else do
      let parent ← foundParentRef args.src args.inputPath c.scanPos
      if parent then
        if c.writePos == writePathStart || c.writePos - 1 == writePathStart then ret .invalidPath
        else do
          let pathStart := platformFilepathEndOfPrefix args.inputPath
          let writePos ← loop (dropNameBody c.dst pathStart) fuel (c.writePos - 1)
          ret (.continueLoop { c with writePos := writePos, scanPos := c.scanPos + 3 })
      else ret (.writeChar c.scanPos)
  else ret (.writeChar c.scanPos)

/-- The code behind the label `write_char`. -/
def normalizeWriteChar (args : NormalizeArgs) (c : Cursor) (scanPos : Nat) :
    Exec (Cursor ⊕ NormalizeReturn) := do
  let (offset, dst) ← platformWriteCharTo c.dst c.writePos args.src scanPos
  let c := { dst := dst, writePos := c.writePos + offset.toNat,
             scanPos := scanPos + offset.toNat : Cursor }
  if args.outLen ≤ ptrDiff c.writePos args.outPath then
    ret (.inr { result := .err, dst := dst })
  else ret (.inl c)

/-- One round of the main loop. -/
def normalizeBody (args : NormalizeArgs) (fuel writePathStart : Nat) (c : Cursor) :
    Exec (Cursor ⊕ NormalizeReturn) := do
  let byte ← args.src.load c.scanPos
  if byte == nullTerminator then
    let dst ← c.dst.store c.writePos nullTerminator
    ret (.inr { result := .ok, dst := dst })
  else
    match ← normalizeSwitch args fuel writePathStart c byte with
    | .continueLoop c => ret (.inl c)
    | .invalidPath => ret (.inr { result := .invalidPath, dst := c.dst })
    | .writeChar scanPos => normalizeWriteChar args c scanPos

/-- `while (scan_pos < path_start)`: the prefix is copied unchanged. -/
def copyPrefixBody (args : NormalizeArgs) (c : Cursor) : Exec (Cursor ⊕ Cursor) :=
  if c.scanPos < platformFilepathEndOfPrefix args.inputPath then do
    let (offset, dst) ← platformWriteCharTo c.dst c.writePos args.src c.scanPos
    ret (.inl { dst := dst, writePos := c.writePos + offset.toNat,
                scanPos := c.scanPos + offset.toNat })
  else ret (.inr c)

/-- Address zero is `NULL`. -/
def libdFilesystemFilepathNormalize (args : NormalizeArgs) (dst : Mem) (fuel : Nat) :
    Exec NormalizeReturn :=
  if args.outPath == 0 || args.outLen == 0 || args.inputPath == 0 then
    ret { result := .invalidParameter, dst := dst }
  else do
    let first ← args.src.load args.inputPath
    if first == nullTerminator then ret { result := .invalidParameter, dst := dst }
    else do
      let start := { dst := dst, writePos := args.outPath, scanPos := args.inputPath : Cursor }
      let c ← loop (copyPrefixBody args) fuel start
      loop (normalizeBody args fuel c.writePos) fuel c

end Libdane
