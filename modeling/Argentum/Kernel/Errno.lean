/-
# Kernel.Errno — the errors the modelled calls return
-/

namespace Argentum

inductive Errno where
  | eperm
  | enoent
  | eintr
  | eio
  | ebadf
  | eagain
  | enomem
  | eacces
  | ebusy
  | eexist
  | enotdir
  | eisdir
  | einval
  | enospc
  | erofs
  | emlink
  | erange
  | enametoolong
  | enolck
  | enotempty
  | enodata
  | enodev
  | etimedout
  deriving DecidableEq

end Argentum
