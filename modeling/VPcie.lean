import VPcie.Lib.LinkedQueue
import VPcie.Lib.Runs
import VPcie.Lib.DeltaCycle
import VPcie.Lib.Greedy
import VPcie.Lib.Words
import VPcie.Lib.Bitmap
import VPcie.Net.Send
import VPcie.Net.RecvBounds
import VPcie.Device.BarRegisters
import VPcie.Device.OnMsgRecv
import VPcie.Device.Grammar
import VPcie.Device.ConfigStore
import VPcie.Device.MainDma
import VPcie.Device.DmaTransfer
import VPcie.Device.DmaRegisters
import VPcie.Qemu.Probe
import VPcie.Qemu.Regions
import VPcie.Qemu.Framing
import VPcie.Qemu.ReplyMatching
import VPcie.Glue.Delivery
import VPcie.Glue.Transmit
import VPcie.Glue.Sends
import VPcie.Glue.Marshal
import VPcie.Vhdl.Dma
import VPcie.Vhdl.Transfer
import VPcie.Vhdl.Endpoint
import VPcie.Vhdl.Deadlock
import VPcie.Vhdl.Starts
import VPcie.Sbone.Main
import VPcie.Sbone.RegisterFile
import VPcie.Sbone.IrqCount
import VPcie.Kdma.BarAccess
import VPcie.Kdma.Pmem
import VPcie.Kdma.PmemOwners
import VPcie.Kdma.Probe
import VPcie.Kdma.Irq
import VPcie.Kdma.DevAlloc
import VPcie.Ebone.Master
import VPcie.Ebone.Requests
import VPcie.Ebone.Slave
import VPcie.Ebone.Aborts
import VPcie.Sbone.Board
import VPcie.Vhdl.Isolation
import VPcie.Vhdl.WriteLoop
import VPcie.Sbone.Answers
import VPcie.Qemu.GuestMemory
import VPcie.Sbone.DevOpen
import VPcie.Sbone.Completes
import VPcie.Ebone.FifoS
import VPcie.Ebone.RegsSlave
import VPcie.Ebone.Core
import VPcie.Ebone.RegsBus
import VPcie.Ebone.RegsAccess
import VPcie.Ebone.RegsServed
import VPcie.Ebone.Assertions
import VPcie.Ebone.RegsBurst
import VPcie.Ebone.FtMaster
import VPcie.Ebone.FtSource
import VPcie.Ebone.Dma
import VPcie.Ebone.DmaSteps
import VPcie.Ebone.DmaStages
import VPcie.Ebone.DmaEnds
