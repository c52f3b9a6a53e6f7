import Mathlib.Init

/-!
# Error codes

`a0_err_t`, with the system code of an `A0_ERR_SYS` and the text of an
`A0_ERR_CUSTOM_MSG`, which the library keeps in `a0_err_syscode` and
`a0_err_msg`. A function that returns `A0_OK` or an error gives an `Except Err`.
-/

namespace AlephZero

/-- The `errno` values the library reports. -/
inductive Errno where
  | eperm | enoent | esrch | eintr | eagain | enomem | efault | ebusy | einval | espipe | edeadlk | enosys | etimedout
  | eshutdown | eownerdead
  deriving DecidableEq, Repr

/-- `a0_err_t`, less `A0_OK`. -/
inductive Err where
  /-- `A0_ERR_SYS`, with the system code. -/
  | sys (code : Errno)
  /-- `A0_ERR_CUSTOM_MSG`, with the text. -/
  | customMsg (text : String)
  | invalidArg | range | again | iterDone | notFound | frameLarge | badPath | badTopic | cancelled
  deriving DecidableEq, Repr

end AlephZero
