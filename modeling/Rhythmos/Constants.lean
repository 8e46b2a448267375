import Mathlib

/-!
# Constants of the kernel

The values of `constants.h` and `kernel.h` that the modelled functions use,
under the source's names.
-/

namespace Rhythmos

/-! ## Memory layout -/

def mb : ℕ := 1048576
def bufsize : ℕ := 1024
def pageSize : ℕ := 4096
def processStackBase : ℕ := 0x40000000
def processStackSize : ℕ := 65536
def kernelMemSize : ℕ := 4194304
def pageStart : ℕ := 6291456
def processDataBase : ℕ := 0x20000000
def processTextBase : ℕ := 0x10000000
def pathMax : ℕ := 1024
def nameMax : ℕ := 1024
def maxMessageSize : ℕ := 1024

/-! ## Page table entries -/

def pageAddressMask : ℕ := 0xFFFFF000
def pageUser : ℕ := 4
def pageSupervisor : ℕ := 0
def pageReadWrite : ℕ := 2
def pageReadOnly : ℕ := 0
def pagePresent : ℕ := 1

/-! ## Error numbers -/

def ebadf : ℤ := 2
def einval : ℤ := 3
def esrch : ℤ := 4
def enoent : ℤ := 6
def emfile : ℤ := 7
def eisdir : ℤ := 8
def enotdir : ℤ := 9
def enosys : ℤ := 10
def enomem : ℤ := 11
def efault : ℤ := 12
def eagain : ℤ := 13
def echild : ℤ := 14
def esuspend : ℤ := 1000

end Rhythmos
