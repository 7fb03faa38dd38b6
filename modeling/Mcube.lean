import Mcube.Ring
import Mcube.RunQueue.Defs
import Mcube.RunQueue.Invariant
import Mcube.RunQueue.Misuse
import Mcube.List
import Mcube.ListIter
import Mcube.Spinlock.Defs
import Mcube.Spinlock.Exclusion
import Mcube.Spinlock.Interrupts
import Mcube.VmMap
import Mcube.Acpi.Madt
import Mcube.Acpi.BootTable
import Mcube.Acpi.CreatePage
import Mcube.Acpi.MapRange
import Mcube.Dump
import Mcube.E820
import Mcube.Ioapic
import Mcube.MpTables
import Mcube.MpConfig
import Mcube.Memcpy
import Mcube.SmpBoot
import Mcube.Shell
import Mcube.Keyboard
import Mcube.Dsctbl
import Mcube.Timer
