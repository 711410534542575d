/-!
# Result codes shared by the library

Every entry point of the library answers with one `LibdResult`. The constants below are the
path bytes and the alignment bound that several modules read. Sizes are those of a 64-bit
target: `usize` and `uptr` are `UInt64`.
-/

namespace Libdane

/-- `enum libd_result`. -/
inductive LibdResult where
  | ok
  | err
  | noMemory
  | bufferOverflow
  | invalidParameter
  | initFailed
  | notInitialized
  | invalidPath
  | invalidPathType
  | envVarNotFound
  | tooManyEnvExpansions
  | threadInitFailed
  | invalidAlignment
  | invalidPointer
  | freeListFailure
  | indexMustBeUnsigned
  | invalidFree
  | memNotImplemented
  | resultCount
  deriving DecidableEq, Repr

def nullTerminator : UInt8 := 0
def dot : UInt8 := 46

/-- `PATH_SEPARATOR` of the POSIX build. -/
def pathSeparator : UInt8 := 47

@[simp] theorem dot_ne_nullTerminator : dot ≠ nullTerminator := by decide

@[simp] theorem dot_ne_pathSeparator : dot ≠ pathSeparator := by decide

@[simp] theorem pathSeparator_ne_nullTerminator : pathSeparator ≠ nullTerminator := by decide

/-- `LIBD_MAX_ALIGN`, the alignment of the most strictly aligned scalar. -/
def libdMaxAlign : UInt8 := 16

def u32Max : UInt32 := 0 - 1

end Libdane
