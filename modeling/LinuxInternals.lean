import LinuxInternals.Cbuffer.Runs
import LinuxInternals.Cbuffer.Repeated
import LinuxInternals.Cbuffer.Allocation
import LinuxInternals.Fifoproc.Counts
import LinuxInternals.Fifoproc.Stream
import LinuxInternals.Fifoproc.Writes
import LinuxInternals.Fifoproc.Blocked
import LinuxInternals.Fifoproc.Monitor
import LinuxInternals.Fifotest.Delivery
import LinuxInternals.Prodcons.Queue
import LinuxInternals.Prodcons1.Accounting
import LinuxInternals.Prodcons2.Queues
import LinuxInternals.Prodcons2.Failures
import LinuxInternals.Modtimer.Waiting
import LinuxInternals.Modtimer.Lifecycle
import LinuxInternals.Modtimer.Flush
import LinuxInternals.Modtimer.Delivery
import LinuxInternals.Modtimer.Overrun
import LinuxInternals.Modtimer.Formatting
import LinuxInternals.Modtimer.Numbers
import LinuxInternals.Modtimer.ConfigRead
import LinuxInternals.Modtimer.Configuration
import LinuxInternals.Modlist.Rebuild
import LinuxInternals.Modlist.Guard
import LinuxInternals.Modlist1.Independence
import LinuxInternals.Stringlist.Removal
import LinuxInternals.Stringlist.Copies
import LinuxInternals.Multilist.Commands
import LinuxInternals.Multilist.RoundTrip
import LinuxInternals.Multilist.Reading
import LinuxInternals.Blinkdrv.Lifetime
import LinuxInternals.Blinkdrv.Stores
import LinuxInternals.ListHead.Refinement
import LinuxInternals.Modlist1.Refinement
import LinuxInternals.Clipboard.RoundTrip
import LinuxInternals.Prodcons1.Blocked
import LinuxInternals.Prodcons2.Bounded
import LinuxInternals.Modlist.Atomic
import LinuxInternals.Modtimer.Blocked
import LinuxInternals.Multilist.Unload
import LinuxInternals.Modtimer.Sessions
import LinuxInternals.Hlist.Sessions
import LinuxInternals.Blinkdrv.User
import LinuxInternals.Modleds.FrontEnds
import LinuxInternals.Stringlist.Listing
import LinuxInternals.Stringlist.Independence
import LinuxInternals.Fifoproc.Ends
