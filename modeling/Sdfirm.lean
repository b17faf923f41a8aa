import Sdfirm.Proof.AcpiTerm.Free
import Sdfirm.Proof.Bh.Pass
import Sdfirm.Proof.BulkDio.Windows
import Sdfirm.Proof.CcidSpe.Policy
import Sdfirm.Proof.Cmdline.Split
import Sdfirm.Proof.Delay.Short
import Sdfirm.Proof.Dfu.Upload
import Sdfirm.Proof.Flash.Erase
import Sdfirm.Proof.Gpt.Lookup
import Sdfirm.Proof.Heap.MemAlloc
import Sdfirm.Proof.HidKbd.Shown
import Sdfirm.Proof.I2c.Accounting
import Sdfirm.Proof.IfdAtr.Length
import Sdfirm.Proof.IfdPps.Select
import Sdfirm.Proof.IfdT0.Commands
import Sdfirm.Proof.IfdT1.Crc
import Sdfirm.Proof.IfdT1.Escalation
import Sdfirm.Proof.Iommu.Gather
import Sdfirm.Proof.Iommu.Map
import Sdfirm.Proof.Kcs.Report
import Sdfirm.Proof.Mem.Boot
import Sdfirm.Proof.Msi.Mapping
import Sdfirm.Proof.Mtd.Erase
import Sdfirm.Proof.MtdBlock.Window
import Sdfirm.Proof.Page.Run
import Sdfirm.Proof.Pci.Caps
import Sdfirm.Proof.Pci.Routed
import Sdfirm.Proof.Pci.Scan
import Sdfirm.Proof.ScdNotify.Message
import Sdfirm.Proof.Semaphore.Accounting
import Sdfirm.Proof.Spinlock.Ticket
import Sdfirm.Proof.Term.Screen
import Sdfirm.Proof.Tick.Drift
import Sdfirm.Proof.Timer.Dispatch
import Sdfirm.Proof.Timer.Sorted
import Sdfirm.Proof.UsbConfig.Consistent
import Sdfirm.Proof.Vsnprintf.Bounded
import Sdfirm.Proof.Vsnprintf.Integer
