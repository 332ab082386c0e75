import Mathlib.Data.Int.Notation

/-!
# Error numbers

The numbers of `errno.h` that the file system calls return.
-/
namespace Ferrite.Fs

def eperm : ℤ := 1
def enoent : ℤ := 2
def eio : ℤ := 5
def ebadf : ℤ := 9
def enomem : ℤ := 12
def eacces : ℤ := 13
def ebusy : ℤ := 16
def eexist : ℤ := 17
def enodev : ℤ := 19
def enotdir : ℤ := 20
def eisdir : ℤ := 21
def einval : ℤ := 22
def emfile : ℤ := 24
def efbig : ℤ := 27
def enospc : ℤ := 28
def erange : ℤ := 34
def enametoolong : ℤ := 36
def enosys : ℤ := 38
def enotempty : ℤ := 39

end Ferrite.Fs
