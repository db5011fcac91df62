import Multicycle.Image.Binary
import Multicycle.Machine
import Multicycle.Proofs.Access.Memory
import Multicycle.Proofs.Checked.Building
import Multicycle.Proofs.Checked.Tick
import Multicycle.Proofs.Image.Acceptance
import Multicycle.Proofs.Image.ByteOrder
import Multicycle.Proofs.Image.Lines
import Multicycle.Proofs.Machine.Accounts
import Multicycle.Proofs.Machine.Alignment
import Multicycle.Proofs.Machine.Budget
import Multicycle.Proofs.Machine.Halt
import Multicycle.Proofs.Machine.PageRegisters
import Multicycle.Proofs.Machine.Regions
import Multicycle.Proofs.Machine.Timing
import Multicycle.Proofs.Rv32i.Arithmetic
import Multicycle.Proofs.Rv32i.Encode
import Multicycle.Proofs.Rv32i.Refinement
import Multicycle.Proofs.Serial.Line
import Multicycle.Proofs.Serial.Pace
import Multicycle.Proofs.Serial.Polling
import Multicycle.Proofs.Settings.Document
import Multicycle.Settings.Document
